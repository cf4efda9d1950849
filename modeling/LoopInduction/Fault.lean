import LoopInduction.Instruction

/-!
# Faults

A `Fault` is the reason why a change of a program stopped, or why a listing is not a program. Going
on after one would give a program that means something else. `Fault.message` is its wording; how it
is reported is the matter of `Failure`.
-/

namespace LoopInduction

/-- A structural inconsistency of a program. -/
inductive Fault
  | notInProgram (id : InstrId)
  | doesNotFollow (last first : InstrId)
  /-- The instruction `id`, with its place and function, jumps to nowhere. -/
  | danglingJump (id target : InstrId) (location : Location) (function : String)
  | listedTwice (id : InstrId)
  | targetNotListed (id target : InstrId)
  /-- The scaffolding leads to another instruction than the head of the loop. -/
  | scaffoldMissesHead (start reached head : InstrId)
  | scaffoldRunsOff (start head : InstrId)
  | exitIsNoJump (exit : InstrId) (kind : Kind) (head : InstrId)
  | assumptionNotAfterExit (assumption exit head : InstrId)
  | conditionStaysInside (branch assumption head exit : InstrId)
  | exitTargetLost (branch target head : InstrId)
  | emptyBody (head exit : InstrId)
  | exitIsLast (head exit : InstrId)
  | targetHasNoCopy (id target head : InstrId)
  | targetNotInProgram (id target : InstrId)
  deriving DecidableEq

/-- The wording of a fault. -/
def Fault.message : Fault → String
  | notInProgram id => s!"Instruction {id.text} is not part of the program"
  | doesNotFollow last first => s!"Instruction {last.text} does not follow instruction {first.text}"
  | danglingJump id target _ _ =>
    s!"Instruction {id.text} jumps to {target.text}, which is not part of the program"
  | listedTwice id => s!"Instruction id {id.text} is listed twice"
  | targetNotListed id target =>
    s!"Instruction {id.text} jumps to {target.text}, which is not listed"
  | scaffoldMissesHead start reached head =>
    s!"Scaffolding starting at {start.text} ends at {reached.text} "
      ++ s!"instead of the loop head {head.text}"
  | scaffoldRunsOff start _ =>
    s!"Scaffolding starting at {start.text} runs off the end of the function"
  | exitIsNoJump exit kind _ =>
    s!"Loop exit {exit.text} is a {kind.text} instead of a backwards GOTO"
  | assumptionNotAfterExit assumption exit _ =>
    s!"Post-loop assumption {assumption.text} does not directly follow loop exit {exit.text}"
  | conditionStaysInside branch assumption _ _ =>
    s!"Loop condition at {branch.text} never leaves the loop, "
      ++ s!"so nothing reaches the assumption at {assumption.text}"
  | exitTargetLost branch target _ =>
    s!"Loop condition at {branch.text} no longer jumps to its exit target {target.text}"
  | emptyBody head _ => s!"Loop {head.text} has no body to duplicate"
  | exitIsLast _ exit => s!"Loop exit {exit.text} is the last instruction of the function"
  | targetHasNoCopy id target _ =>
    s!"Branch at {id.text} goes to {target.text} inside the loop, which has no copy"
  | targetNotInProgram id target =>
    s!"Branch at {id.text} goes to {target.text}, which is not part of the program"

end LoopInduction
