import LoopInduction.Program.Basic

/-!
# The condition of a loop

The condition is taken from the first conditional jump of the body. It keeps the polarity of that
jump: for a loop that runs while `c` holds it usually is the negation of `c`, under which the loop
is left.
-/

namespace LoopInduction

/-- The guard that controls a loop. -/
structure LoopCondition where
  guard : Expr
  /-- The jump that the guard was taken from. -/
  branch : InstrId
  /-- The first target of the jump that is neither in the body nor the exit; none where it only
  jumps around inside the loop. -/
  exitTarget : Option InstrId
  deriving DecidableEq

namespace Program

variable (p : Program)

/-- The condition that a jump of the body gives. -/
def conditionAt (body : List InstrId) (exit branch : InstrId) : LoopCondition where
  guard := (p.fetch branch).guard
  branch := branch
  exitTarget := (p.fetch branch).targets.find? fun t ↦ t ≠ exit ∧ t ∉ body

/-- The condition of a loop, none where its body has no conditional jump. -/
def loopCondition (head exit : InstrId) : Except Fault (Option LoopCondition) := do
  let body ← p.range head exit
  return (body.find? fun id ↦ (p.fetch id).isConditionalJump).map (p.conditionAt body exit)

end Program

end LoopInduction
