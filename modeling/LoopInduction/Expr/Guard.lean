import LoopInduction.Expr.Basic

/-!
# Negating and normalizing guards

A loop usually branches out on the negation of the condition that holds inside it, with any number
of negations in front. `Expr.normalized` is the condition itself: pairs of leading negations cancel
and one that is left is dropped. A `GuardBuilder` writes the negation back for the other side.
-/

namespace LoopInduction

/-- How the transformations write truth and negation. -/
structure GuardBuilder where
  negate : Expr → Expr
  truth : Expr

namespace GuardBuilder

/-- Cancels a leading negation and flips a literal; any other expression is put under a negation. -/
def simplifying : GuardBuilder where
  negate
    | .not e => e
    | .bool b => .bool !b
    | e => .not e
  truth := .bool true

end GuardBuilder

namespace Expr

/-- Cancels leading negations in pairs. -/
def cancelPairs : Expr → Expr
  | .not (.not e) => e.cancelPairs
  | e => e

/-- Drops one leading negation, if there is one. -/
def dropNot : Expr → Expr
  | .not e => e
  | e => e

/-- The condition that a guard is about. It is the same for a guard and for its negation. -/
def normalized (guard : Expr) : Expr :=
  guard.cancelPairs.dropNot

@[simp] theorem normalized_not_not (e : Expr) : (Expr.not (.not e)).normalized = e.normalized := by
  simp [normalized, cancelPairs]

end Expr

end LoopInduction
