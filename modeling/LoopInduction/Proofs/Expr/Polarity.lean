import LoopInduction.Expr.Guard
import Mathlib.Algebra.Ring.Parity

/-!
# The value of a normalized guard

A guard and its negation are normalized to the same condition, so the condition cannot have the
value of both. Which of the two it has depends on the number of negations in front of the guard
alone, whatever stands below them (`Interpretation.value_normalized`).

## Main definitions

* `Expr.negations` : the number of negations in front of an expression.
* `Interpretation` : a reading of expressions as truth values.
-/

namespace LoopInduction

/-- The number of negations in front of an expression. -/
def Expr.negations : Expr → Nat
  | .not e => e.negations + 1
  | _ => 0

/-- A reading of expressions as truth values. Negations and literals are read as what they are,
anything else in any way. -/
structure Interpretation where
  value : Expr → Bool
  value_not : ∀ e, value (.not e) = !value e
  value_bool : ∀ b, value (.bool b) = b

/-- The value of an expression if `atom` says what stands below negations and literals. -/
def Expr.valueWith (atom : Expr → Bool) : Expr → Bool
  | .not e => !e.valueWith atom
  | .bool b => b
  | e => atom e

namespace Interpretation

/-- The reading of what stands below negations and literals as `atom` says. -/
def ofAtoms (atom : Expr → Bool) : Interpretation where
  value := Expr.valueWith atom
  value_not e := by rw [Expr.valueWith]
  value_bool b := by rw [Expr.valueWith]

variable (I : Interpretation)

/-- Behind an odd number of negations stands the opposite of the guard, behind an even number the
guard. -/
theorem value_normalized (e : Expr) :
    I.value e.normalized = if Odd e.negations then !I.value e else I.value e := by
  induction e using Expr.cancelPairs.induct with
  | case1 e ih =>
    have hodd : Odd (Expr.not (.not e)).negations ↔ Odd e.negations := by
      simp only [Expr.negations, Nat.odd_add_one, Nat.not_odd_iff_even, Nat.not_even_iff_odd]
    simp only [Expr.normalized_not_not, ih, I.value_not, Bool.not_not, hodd]
  | case2 e hne =>
    rw [Expr.normalized, Expr.cancelPairs.eq_2 e hne]
    cases e with
    | not f =>
      have hone : (Expr.not f).negations = 1 := by
        cases f with
        | not f => exact absurd rfl (hne f)
        | _ => rfl
      rw [Expr.dropNot, I.value_not, hone, if_pos odd_one, Bool.not_not]
    | _ => exact (if_neg Nat.not_odd_zero).symm

/-- However it is written, the negation has the opposite value. -/
theorem value_negate (e : Expr) : I.value (GuardBuilder.simplifying.negate e) = !I.value e := by
  cases e with
  | not e => exact (Bool.not_not _).symm.trans (congrArg (!·) (I.value_not e).symm)
  | bool b => exact (I.value_bool _).trans (congrArg (!·) (I.value_bool b).symm)
  | _ => exact I.value_not _

end Interpretation

end LoopInduction
