import LoopInduction.Instruction

/-!
# Warnings

A loop that cannot be transformed is left as it is, and a warning says so.
-/

namespace LoopInduction

/-- Says that no condition was found for a loop, so that it was not transformed. -/
structure Warning where
  message : String
  location : Location
  function : String
  /-- The listing of the loop. -/
  listing : String
  deriving DecidableEq, Inhabited

/-- Why a loop is not transformed. -/
def Warning.noCondition : String :=
  "we couldn't find a loop condition for the following loop, so we're not converting it."

end LoopInduction
