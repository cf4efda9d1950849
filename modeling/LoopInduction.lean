import LoopInduction.Expr.Basic
import LoopInduction.Expr.Text
import LoopInduction.Expr.Guard
import LoopInduction.Json.Value
import LoopInduction.Json.Quoted
import LoopInduction.Json.Number
import LoopInduction.Json.Token
import LoopInduction.Json.Reader
import LoopInduction.Json.Printer
import LoopInduction.Json.Record
import LoopInduction.Expr.Json
import LoopInduction.Instruction
import LoopInduction.Fault
import LoopInduction.Program.Basic
import LoopInduction.Program.Entries
import LoopInduction.Program.Edit
import LoopInduction.Program.Skips
import LoopInduction.Program.Listing
import LoopInduction.Program.Arena
import LoopInduction.Program.Operation
import LoopInduction.Program.Text
import LoopInduction.Loop.Basic
import LoopInduction.Loop.Scaffold
import LoopInduction.Loop.Unwinding
import LoopInduction.Loop.Assertions
import LoopInduction.Diagnostics.Terminal
import LoopInduction.Functions.NameMap
import LoopInduction.Conversion.Run
import LoopInduction.Functions.Json
import LoopInduction.Toml.Statement
import LoopInduction.Config.Text
import LoopInduction.Files
import LoopInduction.Proofs.Program.Position
import LoopInduction.Proofs.Program.Insertion
import LoopInduction.Proofs.Program.Jumps
import LoopInduction.Proofs.Program.Skips
import LoopInduction.Proofs.Loop.Unwinding
import LoopInduction.Proofs.Program.Extension
import LoopInduction.Proofs.Execution
import LoopInduction.Proofs.Loop.UnwindingTraces
import LoopInduction.Proofs.Loop.Scaffold
import LoopInduction.Proofs.Conversion.Passes
import LoopInduction.Proofs.Conversion.Loop
import LoopInduction.Proofs.Conversion.Function
import LoopInduction.Proofs.Conversion.Gate
import LoopInduction.Proofs.Functions.NameMap
import LoopInduction.Proofs.Conversion.Run
import LoopInduction.Proofs.Conversion.Nesting
import LoopInduction.Proofs.Conversion.Success
import LoopInduction.Proofs.Conversion.ControlFlow
import LoopInduction.Proofs.Conversion.Entry
import LoopInduction.Proofs.Expr.Polarity
import LoopInduction.Proofs.Conversion.Assumptions
import LoopInduction.Proofs.Conversion.Leaving
import LoopInduction.Proofs.Conversion.Landing
import LoopInduction.Proofs.Loop.UntestedTrips
import LoopInduction.Proofs.Outcome
import LoopInduction.Proofs.Program.Growth
import LoopInduction.Proofs.Loop.Copying
import LoopInduction.Proofs.Conversion.Handling
import LoopInduction.Proofs.Conversion.Originals
import LoopInduction.Proofs.Conversion.Obligations
import LoopInduction.Proofs.Program.Listing
import LoopInduction.Proofs.Conversion.Targets
import LoopInduction.Proofs.Conversion.CopiedAssertions
import LoopInduction.Proofs.Conversion.Concurrency
import LoopInduction.Proofs.Program.Arena
import LoopInduction.Proofs.Program.Ledger
import LoopInduction.Proofs.Program.History
import LoopInduction.Proofs.Json.Value
import LoopInduction.Proofs.Json.Text
import LoopInduction.Proofs.Json.Record
import LoopInduction.Proofs.Expr.Json
import LoopInduction.Proofs.Instruction.Json
import LoopInduction.Proofs.Program.Json
import LoopInduction.Proofs.Functions.Json
import LoopInduction.Proofs.Program.Renaming
import LoopInduction.Proofs.Conversion.Sites
import LoopInduction.Proofs.Conversion.Commuting
import LoopInduction.Proofs.Conversion.Realizing
import LoopInduction.Proofs.Conversion.Rewritten
import LoopInduction.Proofs.Conversion.DiscoveryOrder
import LoopInduction.Proofs.Loop.UnwindingOutcome
import LoopInduction.Proofs.Conversion.IterationPoints
import LoopInduction.Proofs.Conversion.Accounting
import LoopInduction.Proofs.Program.SkipRemoval
import LoopInduction.Proofs.Program.ListingOutcome
import LoopInduction.Proofs.Program.Numbering
import LoopInduction.Proofs.Functions.Refresh
import LoopInduction.Proofs.Functions.Text
import LoopInduction.Proofs.Loop.Guards
import LoopInduction.Proofs.Program.Redirection
import LoopInduction.Proofs.Program.Range
