import LoopInduction.Proofs.Conversion.Function
import LoopInduction.Proofs.Loop.Copying

/-!
# What dealing with a loop leaves of any program

Nothing is asked of the program or of the loop here. However dealing with the loop comes out, the
program has grown up to the pass over the assertions, and in that pass only assertions are touched
that have a copy by then, if the body is copied at all (`Program.Handled`). The check of the targets
at the end is the only step that complains of a jump to nowhere.

## Main definitions

* `Program.HasCopy` : an instruction has a copy.
* `Program.Handled` : what dealing with a loop comes to.

## Main results

* `Edit.ends_convertLoop` : both ends of dealing with a loop.
-/

namespace LoopInduction

variable {p q r : Program} {s : Setup} {l : Loop} {condition : LoopCondition} {guard : Expr}
  {body ids : List InstrId} {a id : InstrId} {e : Fault} {name : String}

namespace Program

/-- The program has a copy of the instruction. -/
def HasCopy (p : Program) (a : InstrId) : Prop :=
  ∃ c ∈ p.order, ∃ ts, p.fetch c = { (p.fetch a).duplicate with targets := ts }

theorem HasCopy.of_grows (h : p.Grows q) (ha : a ∈ p.order) (hcopy : p.HasCopy a) :
    q.HasCopy a := by
  obtain ⟨c, hc, ts, hts⟩ := hcopy
  obtain ⟨ts', hts'⟩ := h.old c hc
  obtain ⟨us, hus⟩ := h.old a ha
  exact ⟨c, h.mem hc, ts', by rw [hts', hts, hus]; rfl⟩

/-- What dealing with a loop comes to: the program grows, and then the assertions of the loop may
become assumptions. -/
inductive Handled (s : Setup) (l : Loop) (p : Program) : Program → Prop
  | grown {q : Program} : p.Grows q → Handled s l p q
  | assumed {r q : Program} {ids : List InstrId} : p.Grows r → s.config.convertAsserts = true →
      r.range l.head l.exit = .ok ids →
      (s.config.duplicateBody = true →
        ∀ a ∈ ids, (r.fetch a).isSourceAssertion = true → r.HasCopy a) →
      Assumed ids r q → Handled s l p q

theorem Handled.extension (h : Handled s l p q) : p.Extends q := by
  cases h with
  | grown hgrows => exact hgrows.extension
  | assumed hgrows _ _ _ hassumed => exact hgrows.extension.trans hassumed.extension

/-- What is left where dealing with a loop stops. If the fault is that of a jump to nowhere, there
is such a jump. -/
def Stopped (s : Setup) (l : Loop) (p : Program) (e : Fault) (q : Program) : Prop :=
  Handled s l p q ∧ (e.isDanglingJump = true → ¬ q.TargetsLive)

theorem stopped_of_grows (h : p.Grows q) (he : e.isDanglingJump = false) : Stopped s l p e q :=
  ⟨.grown h, fun he' ↦ by rw [he] at he'; cases he'⟩

/-! ### Scaffolding -/

theorem isDanglingJump_of_reachedHead {start head : InstrId}
    (h : p.reachedHead start head = .error e) : e.isDanglingJump = false := by
  unfold reachedHead at h
  split at h
  · cases h
    rfl
  · split at h <;> cases h
    rfl

theorem grows_withBlock (h : l.head ∈ p.order) : p.Grows (p.withBlock s l guard) :=
  grows_insertAllAt _ (Nat.le_of_lt (position_lt_iff.2 h)) fun i hi ↦ by
    obtain ⟨horigin, htargets, -⟩ := mem_scaffoldBlock hi
    rw [horigin, htargets]
    exact ⟨Origin.noConfusion, fun _ ↦ soundTargets_nil⟩

theorem grows_withEntry (h : l.head ∈ p.order) : p.Grows (p.withEntry s l guard body) := by
  refine (grows_withBlock h).trans (grows_redirectTargets ?_ _)
  exact (splice_withBlock h).mem_new (List.mem_of_mem_head? (head?_freshIds _))

end Program

open Program

namespace Edit

theorem ends_scaffold (hrange : p.range l.head l.exit = .ok body) :
    EStateM.Ends (scaffold s l condition) p
      (fun _ q ↦ p.Grows q ∧ (p.fetch l.exit).isGoto = true ∧ q.range l.head l.exit = .ok body)
      (fun e q ↦ p.Grows q ∧ e.isDanglingJump = false) := by
  have hhead := (range_eq_ok hrange).1
  have hentry : p.Grows (p.withEntry s l condition.guard body) := grows_withEntry hhead
  rw [EStateM.Ends, run_scaffold_eq s condition hrange]
  cases hreached : (p.withBlock s l condition.guard).reachedHead p.fresh l.head with
  | error e => exact ⟨grows_withBlock hhead, isDanglingJump_of_reachedHead hreached⟩
  | ok reached =>
    simp only
    rw [run_closeLoop_withEntry hrange]
    cases hgoto : (p.fetch l.exit).isGoto with
    | false => exact ⟨hentry, rfl⟩
    | true =>
      have htargets := soundTargets_singleton (hentry.mem hhead)
      exact ⟨hentry.trans (grows_update_targets htargets _), rfl,
        (scaffolded_withEntry hrange).range hrange⟩

/-! ### Unwinding -/

theorem ends_unwindIf (hrange : p.range l.head l.exit = .ok body) :
    EStateM.Ends (unwindIf s l) p
      (fun _ q ↦ p.Grows q ∧ (s.config.duplicateBody = true →
        ∀ u ∈ body, (p.fetch u).isSourceAssertion = true → q.HasCopy u))
      (fun e q ↦ p.Grows q ∧ e.isDanglingJump = false) := by
  rw [unwindIf]
  cases hdup : s.config.duplicateBody with
  | false => exact EStateM.ends_pure ⟨.refl p, fun h ↦ by cases h⟩
  | true =>
    rw [if_pos rfl]
    refine (ends_duplicateBody.mono (fun _ _ h ↦ h) ?_).map some ?_
    · rintro e q ⟨rfl, he⟩
      exact ⟨.refl q, he⟩
    · rintro pts q ⟨body', behind, hrange', hnext, htargets, rfl⟩
      cases hrange.symm.trans hrange'
      have hgrows : p.Grows (p.withIteration l.exit behind s.builder (p.copied body)) :=
        grows_withIteration hrange htargets (mem_of_next? hnext)
      refine ⟨hgrows, fun _ u hu hassert ↦ ?_⟩
      obtain ⟨hkind, horigin⟩ := Instruction.isSourceAssertion_iff.1 hassert
      obtain ⟨c, hc, -, ts, hts⟩ := exists_copy_withIteration hrange htargets behind s.builder hu
        (by simp [Instruction.isScaffold, horigin]) (by simp [Instruction.isSkip, hkind])
      obtain ⟨us, hus⟩ := hgrows.old u ((mem_range_iff hrange).1 hu).1
      exact ⟨c, hc, ts, by rw [hts, hus]; rfl⟩

/-! ### The assumption behind a loop -/

/-- Every program on the way to leaving a loop through an assumption has grown. -/
theorem ends_assumeForward (hhead : l.head ∈ p.order) (hexit : l.exit ∈ p.order)
    (hgoto : (p.fetch l.exit).isGoto = true) (hbranch : condition.branch ∈ p.order)
    (hne : condition.branch ≠ l.exit) :
    EStateM.Ends (assumeForward s l condition) p (fun _ q ↦ p.Grows q)
      (fun e q ↦ p.Grows q ∧ e.isDanglingJump = false) := by
  rw [EStateM.Ends, run_assumeForward_eq hexit hgoto]
  generalize hi : (Instruction.assume (s.builder.negate condition.guard.normalized)).scaffoldAt
    (p.fetch l.exit) = i
  have hinsert : p.Grows (p.insertAt (p.position l.exit + 1) i) := by
    refine grows_insertAllAt [i] (position_lt_iff.2 hexit) fun j hj ↦ ?_
    cases List.mem_singleton.1 hj
    rw [← hi]
    exact ⟨Origin.noConfusion, fun _ ↦ soundTargets_nil⟩
  have hassume : p.Grows (withAssumption p l i) :=
    hinsert.trans (grows_update_targets (soundTargets_singleton (hinsert.mem hhead)) _)
  cases htarget : condition.exitTarget with
  | none =>
    rw [leaveThrough, EStateM.run_bind, EStateM.run_get]
    simp only [next?_withAssumption hexit, htarget, ne_eq, not_true_eq_false, if_false]
    exact ⟨hassume, rfl⟩
  | some target =>
    have hredirect := hassume.trans (grows_update_redirect target
      ((splice_withAssumption hexit i).mem_new List.mem_cons_self) condition.branch)
    rw [run_leaveThrough_withAssumption hexit hbranch hne htarget]
    by_cases hmem : target ∈ (p.fetch condition.branch).targets
    · rw [if_pos hmem]
      exact hredirect
    · rw [if_neg hmem]
      exact ⟨hredirect, rfl⟩

theorem ends_forwardIf (hhead : l.head ∈ p.order) (hexit : l.exit ∈ p.order)
    (hgoto : (p.fetch l.exit).isGoto = true) (hbranch : condition.branch ∈ p.order)
    (hne : condition.branch ≠ l.exit) :
    EStateM.Ends (forwardIf s l condition) p (fun _ q ↦ p.Grows q)
      (fun e q ↦ p.Grows q ∧ e.isDanglingJump = false) := by
  rw [forwardIf]
  split
  · exact (ends_assumeForward hhead hexit hgoto hbranch hne).map some fun _ _ h ↦ h
  · exact EStateM.ends_pure (.refl p)

/-! ### The whole conversion -/

/-- An assertion of the source that the loop has once its body is copied was there before. -/
private theorem hasCopy_of_mem_range (h : p.Grows q) (hrange : p.range l.head l.exit = .ok body)
    (hcopies : ∀ u ∈ body, (p.fetch u).isSourceAssertion = true → q.HasCopy u)
    (hids : q.range l.head l.exit = .ok ids) (ha : a ∈ ids)
    (hassert : (q.fetch a).isSourceAssertion = true) : q.HasCopy a := by
  have hsource := (Instruction.isSourceAssertion_iff.1 hassert).2
  have hap : a ∈ p.order := by
    by_contra hap
    exact h.added a ((mem_range_iff hids).1 ha).1 hap hsource
  obtain ⟨ts, hts⟩ := h.old a hap
  rw [hts] at hassert
  exact hcopies a ((mem_range_iff_of_sublist h.sublist hrange hids hap).1 ha) hassert

theorem ends_convertWith (s : Setup) (name : String) (hcond : p.HasCondition l body condition) :
    EStateM.Ends (convertWith s name l condition) p (fun _ ↦ Handled s l p) (Stopped s l p) := by
  have hrange := hcond.range
  obtain ⟨hhead, hexit, hle⟩ := range_eq_ok hrange
  have hstop : ∀ {p' : Program}, p.Grows p' → ∀ (e : Fault) (q : Program),
      p'.Grows q ∧ e.isDanglingJump = false → Stopped s l p e q :=
    fun h e q ⟨hq, he⟩ ↦ stopped_of_grows (h.trans hq) he
  rw [convertWith_eq]
  refine ((ends_scaffold hrange).mono (fun _ _ h ↦ h) (hstop (.refl p))).bind ?_
  rintro _ p₁ ⟨h₁, hgoto, hrange₁⟩
  refine ((ends_unwindIf hrange₁).mono (fun _ _ h ↦ h) (hstop h₁)).bind ?_
  rintro points p₂ ⟨h₁₂, hcopies⟩
  have h₂ := h₁.trans h₁₂
  have hgoto₂ : (p₂.fetch l.exit).isGoto = true := by
    rw [(h₂.extension.retained _ hexit).isGoto_eq, hgoto]
  refine ((ends_forwardIf (h₂.mem hhead) (h₂.mem hexit) hgoto₂ (h₂.mem hcond.branch_mem_order)
    hcond.branch_ne_exit).mono (fun _ _ h ↦ h) (hstop h₂)).bind ?_
  intro assumption p₃ h₂₃
  have h₃ := h₂.trans h₂₃
  have hcopies₃ : s.config.duplicateBody = true →
      ∀ u ∈ body, (p₁.fetch u).isSourceAssertion = true → p₃.HasCopy u := fun hdup u hu hassert ↦
    (hcopies hdup u hu hassert).of_grows h₂₃ (h₁₂.mem ((mem_range_iff hrange₁).1 hu).1)
  obtain ⟨q, hrun, hq⟩ := run_assumeIf (s := s) (l := l) (p := p₃) (exists_range_iff.2
    ⟨h₃.mem hhead, h₃.mem hexit, (h₃.extension.position_le_iff hhead hexit).2 hle⟩)
  have hhandled : Handled s l p q := by
    rw [AssumedIf] at hq
    split at hq
    · next hasserts =>
      obtain ⟨ids, hids, hassumed⟩ := hq
      exact .assumed h₃ hasserts hids (fun hdup a ↦
        hasCopy_of_mem_range (h₁₂.trans h₂₃) hrange₁ (hcopies₃ hdup) hids) hassumed
    · rw [hq]
      exact .grown h₃
  have hends : EStateM.Ends (assumeIf s l) p₃ (fun _ ↦ (· = q)) (Stopped s l p) :=
    EStateM.ends_of_ok hrun rfl
  refine hends.bind ?_
  rintro _ r rfl
  have hvalidated : EStateM.Ends (ask (·.validateTargets)) r (fun _ ↦ Handled s l p)
      (Stopped s l p) := by
    refine ends_ask (fun _ _ ↦ hhandled) fun e he ↦ ⟨hhandled, fun _ hlive ↦ ?_⟩
    rw [targetsLive_iff.1 hlive] at he
    cases he
  exact hvalidated.bind fun _ _ h ↦ EStateM.ends_pure h

/-- Whatever the program and the loop are like, and however dealing with the loop comes out. -/
theorem ends_convertLoop : EStateM.Ends (convertLoop s name l) p
    (fun _ ↦ Handled s l p) (Stopped s l p) := by
  cases hrange : p.range l.head l.exit with
  | error e =>
    have hcond : p.loopCondition l.head l.exit = .error e := by
      rw [loopCondition, hrange]
      rfl
    refine EStateM.ends_of_error (q := p) (e := e) ?_
      (stopped_of_grows (.refl p) (isDanglingJump_of_range hrange))
    rw [convertLoop, EStateM.run_bind, run_ask_error hcond]
  | ok body =>
    cases hbranch : body.find? fun id ↦ (p.fetch id).isConditionalJump with
    | none =>
      obtain ⟨sm, w, hrun⟩ := run_convertLoop_of_none s name hrange hbranch
      exact EStateM.ends_of_ok hrun (.grown (.refl p))
    | some branch =>
      have hcond := hasCondition_conditionAt hrange hbranch
      have hends := ends_convertWith s name hcond
      rw [EStateM.Ends] at hends ⊢
      rw [run_convertLoop hcond]
      cases hrun : (convertWith s name l _).run p <;> rw [hrun] at hends <;> exact hends

end Edit

/-- What holds of a function and is kept by dealing with any of its loops holds of it whichever way
its conversion comes out. Unless all loops are there none is dealt with. -/
theorem ends_convertFunction {discovery : Discovery} {I : Program → Prop} (hstart : I p)
    (step : (∀ l ∈ discovery name p, ∃ body, p.range l.head l.exit = .ok body) →
      ∀ l ∈ discovery name p, ∀ q r, I q → Handled s l q r → I r) :
    EStateM.Ends (convertFunction s discovery name) p (fun _ ↦ I)
      (fun e q ↦ I q ∧ (e.fault.isDanglingJump = true → ¬ q.TargetsLive)) := by
  by_cases hall : ∀ l ∈ discovery name p, ∃ body, p.range l.head l.exit = .ok body
  · rw [EStateM.Ends, run_convertFunction hall, ← EStateM.Ends]
    refine (EStateM.ends_mapM (I := fun todo q ↦ I q ∧ ∀ l ∈ todo, l ∈ discovery name p)
      ⟨hstart, fun l hl ↦ (p.turns_perm _).subset hl⟩ ?_).mono (fun _ _ h ↦ h.1) fun _ _ h ↦ h
    rintro l todo q ⟨hq, htodo⟩
    have hstep : ∀ r, Handled s l q r → I r := fun r ↦
      step hall l (htodo l List.mem_cons_self) q r hq
    have hends : EStateM.Ends (Edit.convertLoop s name l) q
        (fun _ r ↦ I r ∧ ∀ l ∈ todo, l ∈ discovery name p)
        (fun e r ↦ I r ∧ (e.isDanglingJump = true → ¬ r.TargetsLive)) :=
      Edit.ends_convertLoop.mono
        (fun _ r h ↦ ⟨hstep r h, fun m hm ↦ htodo m (List.mem_cons_of_mem _ hm)⟩)
        fun e r h ↦ ⟨hstep r h.1, h.2⟩
    exact hends.adaptExcept _ fun _ _ h ↦ h
  · obtain ⟨l, -, e, he, hrun⟩ := Edit.run_mapM_measure_error name (discovery name p)
      (by simpa using hall)
    refine EStateM.ends_of_error (q := p) (e := ⟨e, name, l.head, l.exit⟩) ?_
      ⟨hstart, fun hdangling ↦ ?_⟩
    · rw [run_convertFunction_eq, hrun]
    · rw [isDanglingJump_of_range he] at hdangling
      cases hdangling

end LoopInduction
