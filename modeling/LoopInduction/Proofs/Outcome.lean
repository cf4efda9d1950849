import LoopInduction.Proofs.Program.Insertion

/-!
# Computations that may stop

An edit that stops keeps what it had changed until then, so what is said of an edit is said of both
ends that it can come to: `EStateM.Ends x p good bad` says that `x`, started on `p`, succeeds with
`good` or stops with `bad`. Ends are composed along the steps of a computation: `Ends.bind`,
`Ends.map`, `ends_mapM`.

## Main definitions

* `EStateM.Ends` : what holds at either end of a computation.
* `EStateM.stateAfter` : what a computation leaves, at either end.
-/

namespace LoopInduction

namespace EStateM

variable {α β ε ε' σ : Type} {x : EStateM ε σ α} {f : α → EStateM ε σ β} {p q : σ}
  {good : α → σ → Prop} {bad : ε → σ → Prop}

/-- Where the computation succeeds, its value and what it leaves are `good`; where it stops, its
fault and what it leaves are `bad`. -/
def Ends (x : EStateM ε σ α) (p : σ) (good : α → σ → Prop) (bad : ε → σ → Prop) : Prop :=
  match x.run p with
  | .ok a q => good a q
  | .error e q => bad e q

theorem ends_iff : Ends x p good bad ↔
    (∀ a q, x.run p = .ok a q → good a q) ∧ ∀ e q, x.run p = .error e q → bad e q := by
  rw [Ends]
  cases x.run p <;> simp

theorem ends_of_ok {a : α} (hrun : x.run p = .ok a q) (h : good a q) : Ends x p good bad := by
  rw [Ends, hrun]
  exact h

theorem ends_of_error {e : ε} (hrun : x.run p = .error e q) (h : bad e q) : Ends x p good bad := by
  rw [Ends, hrun]
  exact h

theorem Ends.of_run_ok (h : Ends x p good bad) {a : α} (hrun : x.run p = .ok a q) : good a q :=
  (ends_iff.1 h).1 a q hrun

theorem Ends.of_run_error (h : Ends x p good bad) {e : ε} (hrun : x.run p = .error e q) : bad e q :=
  (ends_iff.1 h).2 e q hrun

theorem Ends.mono {good' : α → σ → Prop} {bad' : ε → σ → Prop} (h : Ends x p good bad)
    (hgood : ∀ a q, good a q → good' a q) (hbad : ∀ e q, bad e q → bad' e q) :
    Ends x p good' bad' :=
  ends_iff.2 ⟨fun a q hrun ↦ hgood a q (h.of_run_ok hrun),
    fun e q hrun ↦ hbad e q (h.of_run_error hrun)⟩

theorem ends_pure {a : α} (h : good a p) : Ends (pure a) p good bad :=
  h

theorem Ends.bind {good' : β → σ → Prop} (h : Ends x p good bad)
    (hf : ∀ a q, good a q → Ends (f a) q good' bad) : Ends (x >>= f) p good' bad := by
  rw [Ends] at h ⊢
  rw [EStateM.run_bind]
  cases hrun : x.run p with
  | ok a q =>
    rw [hrun] at h
    exact hf a q h
  | error e q =>
    rw [hrun] at h
    exact h

theorem Ends.map {good' : β → σ → Prop} (g : α → β) (h : Ends x p good bad)
    (hg : ∀ a q, good a q → good' (g a) q) : Ends (g <$> x) p good' bad := by
  rw [← bind_pure_comp]
  exact h.bind fun a q ha ↦ ends_pure (hg a q ha)

theorem Ends.adaptExcept {bad' : ε' → σ → Prop} (g : ε → ε') (h : Ends x p good bad)
    (hg : ∀ e q, bad e q → bad' (g e) q) : Ends (EStateM.adaptExcept g x) p good bad' := by
  rw [Ends] at h ⊢
  rw [EStateM.run_adaptExcept]
  cases hrun : x.run p with
  | ok a q =>
    rw [hrun] at h
    exact h
  | error e q =>
    rw [hrun] at h
    exact hg e q h

/-- An invariant of what is there and of the elements that are still to come. -/
theorem ends_mapM {I : List α → σ → Prop} {l : List α} (h : I l p)
    (step : ∀ a l p, I (a :: l) p → Ends (f a) p (fun _ ↦ I l) bad) :
    Ends (l.mapM f) p (fun _ ↦ I []) bad := by
  induction l generalizing p with
  | nil => exact h
  | cons a l ih =>
    rw [List.mapM_cons]
    exact (step a l p h).bind fun b q hq ↦ (ih hq).bind fun _ _ hr ↦ ends_pure hr

/-! ### What is left -/

/-- What the computation leaves, whether it succeeds or stops. -/
def stateAfter (x : EStateM ε σ α) (p : σ) : σ :=
  match x.run p with
  | .ok _ q => q
  | .error _ q => q

theorem Ends.stateAfter {P : σ → Prop} (h : Ends x p (fun _ ↦ P) fun _ ↦ P) :
    P (stateAfter x p) := by
  rw [Ends] at h
  rw [EStateM.stateAfter]
  cases hrun : x.run p <;> rw [hrun] at h <;> exact h

theorem run_eq_ok_of_run' {a : α} (h : x.run' p = some a) : x.run p = .ok a (stateAfter x p) := by
  delta EStateM.run' at h
  rw [EStateM.stateAfter]
  cases hrun : x.run p with
  | ok b q =>
    rw [hrun] at h
    cases h
    rfl
  | error e q =>
    rw [hrun] at h
    cases h

end EStateM

theorem eq_ok_of_toOption {ε α : Type} {x : Except ε α} {a : α} (h : x.toOption = some a) :
    x = .ok a := by
  cases x with
  | error e => cases h
  | ok b =>
    cases h
    rfl

theorem exists_error_of_toOption {ε α : Type} {x : Except ε α} (h : x.toOption = none) :
    ∃ e, x = .error e := by
  cases x with
  | error e => exact ⟨e, rfl⟩
  | ok a => cases h

namespace Edit

variable {α : Type} {p : Program} {good : α → Program → Prop} {bad : Fault → Program → Prop}

/-- A question changes nothing. -/
theorem ends_ask {f : Program → Except Fault α} (hok : ∀ a, f p = .ok a → good a p)
    (herror : ∀ e, f p = .error e → bad e p) : EStateM.Ends (ask f) p good bad := by
  cases hf : f p with
  | ok a => exact EStateM.ends_of_ok (run_ask_ok hf) (hok a hf)
  | error e => exact EStateM.ends_of_error (run_ask_error hf) (herror e hf)

end Edit

end LoopInduction
