import LoopInduction.Instruction.Json
import LoopInduction.Json.Printer
import LoopInduction.Program.Listing
import LoopInduction.Reading

/-!
# Programs as JSON

A program is stored as the listing of its instructions in program order.
-/

namespace LoopInduction

open Json (Value)

namespace Program

/-- Writes a program. -/
def toJson (p : Program) : Value :=
  .record [("instructions", .list (fun e ↦ e.2.toListedJson e.1) p.entries)]

/-- Reads a listing. -/
def listingOfJson? (depth : Nat) (v : Value) : Option Listing :=
  match depth, v.fields? ["instructions"] with
  | d + 1, some [some entries] => entries.items? d Instruction.ofListedJson?
  | _, _ => none

/-- Reads a program. -/
def ofJson (depth : Nat) (v : Value) : Except ReadFault Program :=
  match listingOfJson? depth v with
  | none => .error .noData
  | some listing => match listing.toProgram with
    | .error fault => .error (.listing fault)
    | .ok p => .ok p

/-- The text of a program, without blanks. -/
def jsonText (p : Program) : String :=
  p.toJson.compactText

/-- Reads the text of a program. -/
def ofJsonText (text : String) : Except ReadFault Program :=
  ReadFault.ofText ofJson text

end Program

end LoopInduction
