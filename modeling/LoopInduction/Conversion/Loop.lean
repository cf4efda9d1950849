import LoopInduction.Config.Basic
import LoopInduction.Conversion.Report
import LoopInduction.Loop.Assertions
import LoopInduction.Loop.Basic
import LoopInduction.Loop.Scaffold

/-!
# Converting one loop

`Edit.convertLoop` makes all the changes that one loop needs. A loop without a condition stays as it
is.
-/

namespace LoopInduction

/-- What a conversion works with. -/
structure Setup where
  config : Config
  nondet : NondetSource := .nondet
  builder : GuardBuilder := .simplifying

namespace Edit

/-- Writes the unconstrained state and the assumption in front of a loop, and restores its edges. -/
def scaffold (s : Setup) (l : Loop) (condition : LoopCondition) : Edit Unit := do
  let assignments ← havoc l.head l.vars s.nondet
  let assumption ← assumeBefore l.head condition.guard
  let start := assignments.headD assumption
  discard (ask (·.reachedHead start l.head))
  discard (redirectEntry l.head l.exit start)
  adjustEdges l.head l.exit condition none

/-- Assumes the negated condition behind a loop and leaves the loop through it. -/
def assumeForward (s : Setup) (l : Loop) (condition : LoopCondition) : Edit InstrId := do
  let assumption ← assumeAfter l.exit condition.guard s.builder
  adjustEdges l.head l.exit condition (some assumption)
  return assumption

/-- Converts a loop whose condition is known. -/
def convertWith (s : Setup) (function : String) (l : Loop) (condition : LoopCondition) :
    Edit LoopSummary := do
  scaffold s l condition
  let points ←
    if s.config.duplicateBody then some <$> duplicateBody l.head l.exit s.builder
    else pure none
  let assumption ←
    if s.config.assumesAfter then some <$> assumeForward s l condition
    else pure none
  if s.config.convertAsserts then discard (assumeAssertions l.head l.exit)
  ask (·.validateTargets)
  return {
    function := function, head := l.head, exit := l.exit, branch := some condition.branch,
    points := points, assumption := assumption }

/-- Leaves a loop without a condition as it is. -/
def skipLoop (function : String) (l : Loop) : Edit Verdict := do
  let h ← fetch l.head
  let p ← get
  return .skipped { function := function, head := l.head, exit := l.exit }
    { message := Warning.noCondition, location := h.location, function := function,
      listing := l.text p }

/-- Converts a loop, or skips it where it has no condition. -/
def convertLoop (s : Setup) (function : String) (l : Loop) : Edit Verdict := do
  match ← ask (·.loopCondition l.head l.exit) with
  | none => skipLoop function l
  | some condition => .converted <$> convertWith s function l condition

end Edit

end LoopInduction
