import LoopInduction.Proofs.Conversion.Originals

/-!
# No obligation gets lost

An assertion of the input becomes an assumption with the first loop that it lies in. It does so only
after the body of that loop was copied, and a copy is never turned into an assumption later, since
it does not come from the front end any more. So for every assertion there is one that says the
same, at all times: one program *upholds* another one if it has an assertion for each assertion of
that program. Upholding is a preorder, and dealing with a loop is a step of it
(`Program.Handled.upholds`), whatever loops there are and in whichever order they come.

## Main definitions

* `Program.Upholds` : for each assertion of a program there is one that says the same.

## Main results

* `Functions.run_upholds` : a run upholds all functions.
-/

namespace LoopInduction

variable {p q r : Program} {s : Setup} {l : Loop} {ids : List InstrId}

namespace Program

/-- For every assertion of `p` there is an assertion of `q` of the same condition, with the same
code, place and function. -/
def Upholds (p q : Program) : Prop :=
  ∀ a ∈ p.order, (p.fetch a).isAssert = true →
    ∃ c ∈ q.order, (q.fetch c).isAssert = true ∧ (p.fetch a).Alike (q.fetch c)

theorem Upholds.refl (p : Program) : p.Upholds p := fun a ha hassert ↦
  ⟨a, ha, hassert, .refl _⟩

theorem Upholds.trans (h : p.Upholds q) (h' : q.Upholds r) : p.Upholds r := by
  intro a ha hassert
  obtain ⟨c, hc, hcassert, halike⟩ := h a ha hassert
  obtain ⟨d, hd, hdassert, halike'⟩ := h' c hc hcassert
  exact ⟨d, hd, hdassert, halike.trans halike'⟩

/-- An assertion stays where it is while only targets change. -/
theorem Grows.upholds (h : p.Grows q) : p.Upholds q := by
  intro a ha hassert
  obtain ⟨ts, hts⟩ := h.old a ha
  exact ⟨a, h.mem ha, by rw [hts]; exact hassert, (h.extension.retained a ha).alike⟩

end Program

open Program

/-- An assertion that becomes an assumption leaves its copy, which does not come from the front
end. -/
theorem Assumed.upholds (h : Assumed ids p q)
    (hcopy : ∀ a ∈ ids, (p.fetch a).isSourceAssertion = true → p.HasCopy a) : p.Upholds q := by
  intro a ha hassert
  have hstays : ∀ c ∈ p.order, ¬ (c ∈ ids ∧ (p.fetch c).isSourceAssertion = true) →
      q.fetch c = p.fetch c := fun c hc hnot ↦ fetch_eq (by rw [h.get? c hc, if_neg hnot])
  by_cases hdowngraded : a ∈ ids ∧ (p.fetch a).isSourceAssertion = true
  · obtain ⟨c, hc, ts, hts⟩ := hcopy a hdowngraded.1 hdowngraded.2
    have hnot : ¬ (c ∈ ids ∧ (p.fetch c).isSourceAssertion = true) := by
      rintro ⟨-, hsource⟩
      rw [hts] at hsource
      exact Origin.noConfusion (Instruction.isSourceAssertion_iff.1 hsource).2
    refine ⟨c, h.order ▸ hc, ?_, ?_⟩ <;> rw [hstays c hc hnot, hts]
    · exact hassert
    · exact ⟨rfl, rfl, rfl, rfl⟩
  · refine ⟨a, h.order ▸ ha, ?_, ?_⟩ <;> rw [hstays a ha hdowngraded]
    · exact hassert
    · exact .refl _

theorem Renumbered.upholds (h : Renumbered p q) : p.Upholds q := by
  intro a ha hassert
  refine ⟨a, h.order ▸ ha, ?_, h.alike a⟩
  rw [Instruction.isAssert, h.kind_eq]
  exact hassert

/-- Dealing with a loop loses no assertion, unless assertions become assumptions without a copy. -/
theorem Program.Handled.upholds
    (hconfig : s.config.duplicateBody = true ∨ s.config.convertAsserts = false)
    (h : Handled s l p q) : p.Upholds q := by
  cases h with
  | grown hgrows => exact hgrows.upholds
  | assumed hgrows hasserts _ hcopy hassumed =>
    have hdup : s.config.duplicateBody = true := hconfig.resolve_right (by simp [hasserts])
    exact hgrows.upholds.trans (hassumed.upholds (hcopy hdup))

/-- The conversion of a function loses no assertion, whichever way it comes out. -/
theorem Program.upholds_stateAfter {discovery : Discovery} {name : String}
    (hconfig : s.config.duplicateBody = true ∨ s.config.convertAsserts = false) (p : Program) :
    p.Upholds (EStateM.stateAfter (convertFunction s discovery name) p) :=
  ((ends_convertFunction (.refl p) fun _ _ _ _ _ hq hr ↦ hq.trans (hr.upholds hconfig)).mono
    (fun _ _ h ↦ h) fun _ _ h ↦ h.1).stateAfter

/-- A run of either mode and with either outcome upholds every function, if the bodies of loops are
copied or assertions are left alone. -/
theorem Functions.run_upholds {fs : Functions} {s : Setup} {discovery : Discovery} {r : Run}
    (hr : r = fs.run s discovery ∨ r = fs.runConcurrently s discovery)
    (hconfig : s.config.duplicateBody = true ∨ s.config.convertAsserts = false) :
    ∀ name f, fs.get? name = some f →
      ∃ g, r.functions.get? name = some g ∧ f.body.Upholds g.body := by
  intro name f hf
  obtain ⟨g, hg, hleft⟩ := exists_left_of_run hr hf
  obtain ⟨q, hq, hnumbered⟩ := hleft.body
  refine ⟨g, hg, Upholds.trans ?_ (Renumbered.of_eq_or hnumbered).upholds⟩
  rcases hq with rfl | ⟨-, rfl⟩
  · exact .refl _
  · exact upholds_stateAfter hconfig _

/-- The assertion of `nestedLoops` becomes an assumption, and another one says the same. -/
theorem Functions.run_upholds_nestedLoops :
    let r := (single "main" nestedLoops).run { config := .full } fun _ _ ↦ nestedLoops.loops
    ∃ g, r.functions.get? "main" = some g ∧ (g.body.fetch ⟨2⟩).isAssume = true ∧
      ∃ c ∈ g.body.order, c ≠ ⟨2⟩ ∧ (g.body.fetch c).isAssert = true ∧
        (g.body.fetch c).guard = .var ⟨"safe", .bool⟩ := by
  intro r
  obtain ⟨g, hg, hupholds⟩ := run_upholds (r := r) (.inl rfl) (.inl rfl) "main"
    (.ofBody nestedLoops) rfl
  obtain ⟨c, hc, hassert, halike⟩ := hupholds ⟨2⟩ (by decide) (by decide)
  have hassume : (r.functions.get? "main").map (fun g ↦ (g.body.fetch ⟨2⟩).isAssume) =
      some true := by decide +kernel
  rw [hg, Option.map_some, Option.some.injEq] at hassume
  refine ⟨g, hg, hassume, c, hc, ?_, hassert, halike.guard.trans (by decide)⟩
  rintro rfl
  rw [Instruction.isAssert] at hassert
  rw [Instruction.isAssume, beq_iff_eq.1 hassert] at hassume
  cases hassume

end LoopInduction
