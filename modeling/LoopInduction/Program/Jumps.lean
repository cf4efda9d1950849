import LoopInduction.Program.Basic

/-!
# Jumps

`Program.jumpSources` are the instructions with a given target, `Program.redirectTargets` moves the
jumps of some of them to another target, and `Program.validateTargets` finds a jump to nowhere.
-/

namespace LoopInduction.Program

variable (p : Program)

/-- The instructions that have `target` among their targets, in order. -/
def jumpSources (target : InstrId) : List InstrId :=
  (p.entries.filter (target ∈ ·.2.targets)).map Prod.fst

/-- Redirects the jumps to `old` of the instructions that `accept` selects to `new`. Also gives how
many instructions that are. -/
def redirectTargets (old new : InstrId) (accept : InstrId → Bool) : Program × Nat :=
  let sources := (p.jumpSources old).filter accept
  (p.map fun id i ↦ if id ∈ sources then i.redirect old new else i, sources.length)

/-- The fault of an instruction's first target that the program does not have. -/
def danglingJump? (id : InstrId) (i : Instruction) : Option Fault :=
  (i.targets.find? (!p.contains ·)).map fun t ↦ .danglingJump id t i.location i.function

/-- Every target has to be an instruction of the program; the first that is not is the fault. -/
def validateTargets : Except Fault Unit :=
  match p.entries.findSome? fun e ↦ p.danglingJump? e.1 e.2 with
  | some fault => .error fault
  | none => .ok ()

end LoopInduction.Program
