import LoopInduction.Loop.Assertions
import LoopInduction.Proofs.Program.Jumps

/-!
# Programs that keep another one

No pass takes an instruction of its input away. An instruction is *retained* if nothing but its
targets changed, except that an assertion of the front end may have become an assumption, and a
program *extends* another if it retains its instructions in their order and adds only instructions
that a transformation wrote. Both are preorders, so what one pass guarantees holds of any number of
them. What a retained instruction is asked for by the passes does not change:
`Instruction.Retained.isGoto_eq` and the lemmas behind it.

## Main definitions

* `Instruction.Retained` : an instruction is another one, up to its targets.
* `Program.Extends` : a program keeps another one.
-/

namespace LoopInduction

namespace Instruction

variable {i j k : Instruction}

/-- `j` is `i` up to its targets; an assertion of the front end may have become an assumption. -/
structure Retained (i j : Instruction) : Prop where
  kind : j.kind = i.kind ∨ i.isSourceAssertion = true ∧ j.kind = .assume
  eq_with : j = { i with
    kind := j.kind
    targets := j.targets }

theorem isSourceAssertion_iff :
    i.isSourceAssertion = true ↔ i.kind = .assert ∧ i.origin = .source := by
  simp [isSourceAssertion, isAssert]

namespace Retained

theorem refl (i : Instruction) : Retained i i :=
  ⟨.inl rfl, rfl⟩

theorem with_targets (i : Instruction) (ts : List InstrId) : Retained i { i with targets := ts } :=
  ⟨.inl rfl, rfl⟩

theorem redirect (i : Instruction) (old new : InstrId) : Retained i (i.redirect old new) := by
  rw [redirect_eq_with]
  exact with_targets i _

theorem assumed (h : i.isSourceAssertion = true) : Retained i { i with kind := .assume } :=
  ⟨.inr ⟨h, rfl⟩, rfl⟩

section

variable (h : Retained i j)

include h

theorem guard_eq : j.guard = i.guard := by rw [h.eq_with]

theorem location_eq : j.location = i.location := by rw [h.eq_with]

theorem function_eq : j.function = i.function := by rw [h.eq_with]

theorem origin_eq : j.origin = i.origin := by rw [h.eq_with]

theorem isScaffold_eq : j.isScaffold = i.isScaffold := by rw [isScaffold, isScaffold, h.origin_eq]

/-- The kind is the same, unless it is one of two that are treated alike. -/
theorem kind_beq {c : Kind} (hassert : c ≠ .assert) (hassume : c ≠ .assume) :
    (j.kind == c) = (i.kind == c) := by
  rcases h.kind with hk | ⟨hi, hk⟩
  · rw [hk]
  · rw [hk, (isSourceAssertion_iff.1 hi).1, beq_false_of_ne (Ne.symm hassume),
      beq_false_of_ne (Ne.symm hassert)]

theorem isAssume_of_isAssume (hi : i.isAssume = true) : j.isAssume = true := by
  have hkind : i.kind = .assume := by simpa [isAssume] using hi
  rcases h.kind with hk | ⟨-, hk⟩ <;> simp [isAssume, hk, hkind]

theorem isGoto_eq : j.isGoto = i.isGoto := h.kind_beq (by decide) (by decide)

theorem isSkip_eq : j.isSkip = i.isSkip := h.kind_beq (by decide) (by decide)

theorem isConditionalJump_eq : j.isConditionalJump = i.isConditionalJump := by
  rw [isConditionalJump, isConditionalJump, h.isGoto_eq, h.guard_eq]

theorem isAlwaysTaken_eq : j.isAlwaysTaken = i.isAlwaysTaken := by
  rw [isAlwaysTaken, isAlwaysTaken, h.isGoto_eq, h.guard_eq]

theorem trans (h' : Retained j k) : Retained i k where
  kind := by
    rcases h'.kind with hk | ⟨hj, hk⟩
    · rw [hk]
      exact h.kind
    · obtain ⟨hj, hsource⟩ := isSourceAssertion_iff.1 hj
      rcases h.kind with hi | ⟨-, hi⟩
      · exact .inr ⟨isSourceAssertion_iff.2 ⟨hi ▸ hj, h.origin_eq ▸ hsource⟩, hk⟩
      · rw [hj] at hi
        cases hi
  eq_with := by
    rw [h'.eq_with]
    conv_lhs => rw [h.eq_with]

end

end Retained

end Instruction

namespace Program

variable {p q r : Program} {id : InstrId}

/-- `q` keeps the instructions of `p` in their order and adds only generated ones. -/
structure Extends (p q : Program) : Prop where
  sublist : p.order.Sublist q.order
  retained : ∀ id ∈ p.order, (p.fetch id).Retained (q.fetch id)
  added : ∀ id ∈ q.order, id ∉ p.order → (q.fetch id).origin ≠ .source

namespace Extends

theorem refl (p : Program) : Extends p p where
  sublist := .refl _
  retained _ _ := .refl _
  added _ h h' := absurd h h'

theorem mem (h : Extends p q) (hid : id ∈ p.order) : id ∈ q.order :=
  h.sublist.subset hid

theorem trans (h : Extends p q) (h' : Extends q r) : Extends p r where
  sublist := h.sublist.trans h'.sublist
  retained id hid := (h.retained id hid).trans (h'.retained id (h.mem hid))
  added id hid hp := by
    by_cases hq : id ∈ q.order
    · rw [(h'.retained id hq).origin_eq]
      exact h.added id hq hp
    · exact h'.added id hid hq

theorem position_le_iff (h : Extends p q) {a b : InstrId} (ha : a ∈ p.order) (hb : b ∈ p.order) :
    q.position a ≤ q.position b ↔ p.position a ≤ p.position b :=
  position_le_iff_of_sublist h.sublist ha hb

theorem position_lt_iff (h : Extends p q) {a b : InstrId} (ha : a ∈ p.order) (hb : b ∈ p.order) :
    q.position a < q.position b ↔ p.position a < p.position b := by
  have := h.position_le_iff hb ha
  omega

end Extends

end Program

end LoopInduction
