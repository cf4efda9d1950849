/-!
# Settings

Which of the optional phases run for a loop. Taking the condition, the unconstrained state and the
assumption in front of the loop are not optional.
-/

namespace LoopInduction

/-- The optional phases. -/
structure Config where
  /-- Write one copy of the loop body. -/
  duplicateBody : Bool := false
  /-- With a copy, assume the negated condition behind the loop. -/
  forwardCondition : Bool := true
  /-- Turn the assertions of the first iteration into assumptions. -/
  convertAsserts : Bool := false
  deriving DecidableEq, Inhabited

namespace Config

/-- All phases. -/
def full : Config where
  duplicateBody := true
  forwardCondition := true
  convertAsserts := true

/-- Whether the negated condition is assumed behind a loop. -/
def assumesAfter (c : Config) : Bool :=
  c.duplicateBody && c.forwardCondition

end Config

end LoopInduction
