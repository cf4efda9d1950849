import LoopInduction.Proofs.Expr.Polarity
import LoopInduction.Proofs.Loop.Scaffold

/-!
# The two guards made of one

An expression is a stack of negations on a core that is no negation, and it is one in only one way.
Normalizing takes the whole stack off, so it gives the same for a guard and for all its negations,
and a normalized guard has nothing more to take off. What the simplifying builder puts back is one
negation, or none where the core is a literal: it never stacks them.

The parity of the stack says whether the core has the value of the guard or the opposite one. The
two assumptions of a loop do not depend on it as far as each other is concerned. Whatever the guard,
one of them holds exactly where the other does not.

## Main definitions

* `Expr.IsStack` : some negations on a core that is no negation.
* `Expr.Normalizes` : what becomes of a stack when it is normalized and negated.

## Main results

* `Expr.normalizes_stack` : every guard is one stack, and normalizes to its core.
-/

namespace LoopInduction

namespace Expr

variable {e core core' : Expr} {n m : Nat}

/-! ### Stacks of negations -/

/-- An expression is `n` negations on a core that is no negation. -/
structure IsStack (e : Expr) (n : Nat) (core : Expr) : Prop where
  eq : e = Expr.not^[n] core
  isNot_core : core.isNot = false

theorem iterate_not_succ (n : Nat) (e : Expr) : Expr.not^[n + 1] e = .not (Expr.not^[n] e) :=
  Function.iterate_succ_apply' ..

theorem normalized_of_isNot_eq_false (h : e.isNot = false) : e.normalized = e := by
  cases e with
  | not e => cases h
  | _ => rfl

/-- A guard and its negation are about the same condition. -/
@[simp] theorem normalized_not (e : Expr) : (Expr.not e).normalized = e.normalized := by
  induction e using Expr.cancelPairs.induct with
  | case1 e ih => rw [normalized_not_not, ih, normalized_not_not]
  | case2 e hne =>
    cases e with
    | not e =>
      -- the one negation in front of `e` is dropped, the pair in front of it cancels
      have he : e.isNot = false := by
        cases e with
        | not e => exact absurd rfl (hne e)
        | _ => rfl
      have hone : (Expr.not e).normalized = e := by
        rw [normalized, cancelPairs.eq_2 _ hne, dropNot]
      rw [normalized_not_not, hone, normalized_of_isNot_eq_false he]
    | _ => rfl

theorem normalized_iterate_not (n : Nat) (e : Expr) :
    (Expr.not^[n] e).normalized = e.normalized := by
  induction n with
  | zero => rfl
  | succ n ih => rw [iterate_not_succ, normalized_not, ih]

theorem negations_iterate_not (n : Nat) (e : Expr) :
    (Expr.not^[n] e).negations = e.negations + n := by
  induction n with
  | zero => rfl
  | succ n ih => rw [iterate_not_succ, negations, ih, Nat.add_assoc]

theorem negations_of_isNot_eq_false (h : e.isNot = false) : e.negations = 0 := by
  cases e with
  | not e => cases h
  | _ => rfl

theorem isNot_normalized (e : Expr) : e.normalized.isNot = false := by
  induction e with
  | not e ih => rw [normalized_not, ih]
  | _ => rfl

/-- Normalizing takes off all negations and nothing else. -/
theorem isStack_normalized (e : Expr) : e.IsStack e.negations e.normalized where
  eq := by
    induction e with
    | not e ih => rw [normalized_not, negations, iterate_not_succ, ← ih]
    | _ => rfl
  isNot_core := isNot_normalized e

namespace IsStack

theorem normalized_eq (h : e.IsStack n core) : e.normalized = core := by
  rw [h.eq, normalized_iterate_not, normalized_of_isNot_eq_false h.isNot_core]

theorem negations_eq (h : e.IsStack n core) : e.negations = n := by
  rw [h.eq, negations_iterate_not, negations_of_isNot_eq_false h.isNot_core, Nat.zero_add]

end IsStack

/-! ### Putting a negation back -/

theorem negate_of_isNot_eq_false (h : e.isNot = false) (hbool : ∀ b, e ≠ .bool b) :
    GuardBuilder.simplifying.negate e = .not e := by
  cases e with
  | not e => cases h
  | bool b => exact absurd rfl (hbool b)
  | _ => rfl

/-- What is no negation is not negated twice. -/
theorem negate_ne_not_not (h : e.isNot = false) (f : Expr) :
    GuardBuilder.simplifying.negate e ≠ .not (.not f) := by
  by_cases hbool : ∃ b, e = .bool b
  · obtain ⟨b, rfl⟩ := hbool
    exact fun hc ↦ by cases hc
  · rw [negate_of_isNot_eq_false h (not_exists.1 hbool), ne_eq, not.injEq]
    rintro rfl
    cases h

end Expr

/-! ### The two assumptions -/

namespace Edit

variable {p q : Program} {head exit : InstrId}

/-- Made of one guard, the assumption in front of a loop and the one behind a loop are opposite,
whatever has been done to the program in between. -/
theorem exists_opposite_assumptions (I : Interpretation) (guard : Expr) (hhead : head ∈ p.order)
    (hexit : exit ∈ q.order) : ∃ a p' b q',
      (assumeBefore head guard).run p = .ok a p' ∧ (p'.fetch a).isAssume = true ∧
      (assumeAfter exit guard .simplifying).run q = .ok b q' ∧ (q'.fetch b).isAssume = true ∧
      I.value (q'.fetch b).guard = !I.value (p'.fetch a).guard := by
  refine ⟨_, _, _, _, run_assumeBefore hhead guard, ?_, run_assumeAfter hexit guard _, ?_, ?_⟩
  · rw [Program.fetch_insertAt_fresh]
    rfl
  · rw [Program.fetch_insertAt_fresh]
    rfl
  · rw [Program.fetch_insertAt_fresh, Program.fetch_insertAt_fresh]
    exact I.value_negate guard.normalized

end Edit

namespace Expr

/-- What becomes of a guard that is a stack of `n` negations on a core. -/
structure Normalizes (guard : Expr) (n : Nat) (core : Expr) : Prop where
  normalized_eq : guard.normalized = core
  isNot_normalized : guard.normalized.isNot = false
  /-- Normalizing again changes nothing, nor does a negation in front, nor do two of them. -/
  normalized_normalized : guard.normalized.normalized = guard.normalized
  normalized_not : (Expr.not guard).normalized = guard.normalized
  normalized_not_not : (Expr.not (.not guard)).normalized = guard.normalized
  /-- The negation of a literal is the other one, and what is no literal is put under one
  negation. -/
  negate_literal : ∀ b, core = .bool b →
    GuardBuilder.simplifying.negate guard.normalized = .bool !b
  negate_other : (∀ b, core ≠ .bool b) →
    GuardBuilder.simplifying.negate guard.normalized = .not core
  negate_ne_not_not : ∀ e, GuardBuilder.simplifying.negate guard.normalized ≠ .not (.not e)
  value_of_even : ∀ I : Interpretation, Even n → I.value guard.normalized = I.value guard
  value_of_odd : ∀ I : Interpretation, Odd n → I.value guard.normalized = !I.value guard
  /-- Of the assumptions made of the guard, one in front of a loop and one behind a loop, one holds
  exactly where the other does not. -/
  opposite : ∀ (I : Interpretation) (p q : Program), ∀ head ∈ p.order, ∀ exit ∈ q.order,
    ∃ a p' b q',
      (Edit.assumeBefore head guard).run p = .ok a p' ∧ (p'.fetch a).isAssume = true ∧
      (Edit.assumeAfter exit guard .simplifying).run q = .ok b q' ∧
      (q'.fetch b).isAssume = true ∧
      I.value (q'.fetch b).guard = !I.value (p'.fetch a).guard

/-- A guard is a stack of negations on a core in one way only, it is normalized to that core, and
the negation of any expression has the opposite value. -/
theorem normalizes_stack (guard : Expr) :
    (∃! s : Nat × Expr, guard.IsStack s.1 s.2) ∧
      (∀ n core, guard.IsStack n core → guard.Normalizes n core) ∧
      ∀ (I : Interpretation) (e : Expr),
        I.value (GuardBuilder.simplifying.negate e) = !I.value e := by
  refine ⟨⟨(guard.negations, guard.normalized), guard.isStack_normalized, fun s hs ↦ ?_⟩,
    fun n core h ↦ ?_, fun I ↦ I.value_negate⟩
  · exact Prod.ext hs.negations_eq.symm hs.normalized_eq.symm
  · have hnormalized := h.normalized_eq
    have hvalue (I : Interpretation) := I.value_normalized guard
    rw [h.negations_eq] at hvalue
    constructor
    case normalized_eq => exact hnormalized
    case isNot_normalized => exact guard.isNot_normalized
    case normalized_normalized => exact normalized_of_isNot_eq_false guard.isNot_normalized
    case normalized_not => exact guard.normalized_not
    case normalized_not_not => exact guard.normalized_not_not
    case negate_literal =>
      rintro b rfl
      rw [hnormalized]
      rfl
    case negate_other =>
      intro hbool
      rw [hnormalized, negate_of_isNot_eq_false h.isNot_core hbool]
    case negate_ne_not_not => exact negate_ne_not_not guard.isNot_normalized
    case value_of_even =>
      intro I hn
      rw [hvalue, if_neg (Nat.not_odd_iff_even.2 hn)]
    case value_of_odd =>
      intro I hn
      rw [hvalue, if_pos hn]
    case opposite =>
      exact fun I p q head hhead exit hexit ↦ Edit.exists_opposite_assumptions I guard hhead hexit

/-- Three negations on a literal: the core is the literal, and its negation is the other one. -/
example : (Expr.not (.not (.not (.bool true)))).normalized = .bool true ∧
    GuardBuilder.simplifying.negate (.bool true) = .bool false := by
  decide

end Expr

end LoopInduction
