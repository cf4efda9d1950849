import LoopInduction.Expr.Guard
import LoopInduction.Loop.Condition
import LoopInduction.Program.Edit
import LoopInduction.Program.Jumps

/-!
# Scaffolding around a loop

Instructions written in front of the head and behind the exit of a loop, and the edges that lead to
them. All of them carry the place and the function of the head or the exit they stand next to.

* `Edit.havoc` assigns an unconstrained value to every variable of the loop, `Edit.assumeBefore`
  assumes the condition in front of the head and `Edit.assumeAfter` its negation behind the exit.
* `Program.reachedHead` checks that the scaffolding leads to the head.
* `Edit.redirectEntry` sends the jumps from outside through the scaffolding, `Edit.closeLoop` makes
  the exit jump to the head alone, and `Edit.leaveThrough` makes the condition leave the loop
  through the assumption behind the exit.
-/

namespace LoopInduction

/-- Writes an unconstrained value of a type. -/
abbrev NondetSource := Ty → Expr

namespace Edit

/-- Assigns an unconstrained value to each variable, in one block right before the head. -/
def havoc (head : InstrId) (vars : List Variable) (nondet : NondetSource) :
    Edit (List InstrId) := do
  let h ← fetch head
  insertAllBefore head (vars.map fun v ↦ (Instruction.assign (.var v) (nondet v.type)).scaffoldAt h)

/-- The loop is entered with its condition holding. -/
def assumeBefore (head : InstrId) (guard : Expr) : Edit InstrId := do
  let h ← fetch head
  insertBefore head ((Instruction.assume guard.normalized).scaffoldAt h)

/-- After the loop its condition does not hold any more. -/
def assumeAfter (exit : InstrId) (guard : Expr) (builder : GuardBuilder) : Edit InstrId := do
  let x ← fetch exit
  insertAfter exit ((Instruction.assume (builder.negate guard.normalized)).scaffoldAt x)

end Edit

namespace Program

variable (p : Program)

/-- The first instruction from `start` on that is no scaffolding. -/
def skipScaffold (start : InstrId) : Option InstrId :=
  (p.order.dropWhile (· ≠ start)).find? fun id ↦ !(p.fetch id).isScaffold

/-- The head that the scaffolding leads to; it has to be the one the loop had before. -/
def reachedHead (start head : InstrId) : Except Fault InstrId :=
  match p.skipScaffold start with
  | none => .error (.scaffoldRunsOff start head)
  | some reached =>
    if reached = head then .ok head else .error (.scaffoldMissesHead start reached head)

end Program

namespace Edit

/-- Sends the jumps to the head that come from outside the loop to the start of its scaffolding.
Gives how many there were. -/
def redirectEntry (head exit start : InstrId) : Edit Nat := do
  let body ← ask (·.range head exit)
  always fun p ↦ p.redirectTargets head start fun source ↦ source ∉ body ∧ source ≠ exit

/-- Makes the exit jump to the head and nowhere else. -/
def closeLoop (head exit : InstrId) : Edit Unit := do
  let x ← fetch exit
  if x.isGoto then
    modify (·.update exit ({ · with targets := [head] }))
  else
    throw (.exitIsNoJump exit x.kind head)

/-- Makes the condition leave the loop through the assumption that stands right behind the exit, in
place of the target by which it left before. -/
def leaveThrough (head exit : InstrId) (condition : LoopCondition) (assumption : InstrId) :
    Edit Unit := do
  if (← get).next? exit ≠ some assumption then
    throw (.assumptionNotAfterExit assumption exit head)
  match condition.exitTarget with
  | none => throw (.conditionStaysInside condition.branch assumption head exit)
  | some target =>
    if !(← redirect condition.branch target assumption) then
      throw (.exitTargetLost condition.branch target head)

/-- Restores the edges of a loop that scaffolding was written around. -/
def adjustEdges (head exit : InstrId) (condition : LoopCondition) (assumption : Option InstrId) :
    Edit Unit := do
  closeLoop head exit
  match assumption with
  | none => return ()
  | some a => leaveThrough head exit condition a

end Edit

end LoopInduction
