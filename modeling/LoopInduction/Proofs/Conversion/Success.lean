import LoopInduction.Proofs.Conversion.Nesting
import LoopInduction.Proofs.Conversion.Run

/-!
# When a run succeeds

A conversion of a loop *spares* every loop that is still to come: its instructions stay in one
piece, and none of them gains or loses the property of having a target outside the loop
(`Converted.spares`). Hence whether a loop is converted can be read off the input
(`Program.Admits`), whatever was written for other loops before, and a run succeeds exactly if every
discovered loop of the input is admitted (`Functions.run_ok_iff_admits`).

## Main definitions

* `Program.Spares` : a stretch of instructions is not interfered with.
* `Program.Admits` : what decides about a loop, in the input.
* `Program.Pending` : the loops that are still to come are as they were.
-/

namespace LoopInduction

namespace Program

variable {p q r p₀ : Program} {s : Setup} {l m : Loop} {body ids : List InstrId}
  {condition : LoopCondition}

/-- The program has no scaffolding, and all its targets are live. -/
structure Clean (p : Program) : Prop where
  live : p.TargetsLive
  isScaffold : ∀ id ∈ p.order, (p.fetch id).isScaffold = false

instance : Decidable p.Clean :=
  decidable_of_iff (p.TargetsLive ∧ ∀ id ∈ p.order, (p.fetch id).isScaffold = false)
    ⟨fun ⟨hl, hs⟩ ↦ ⟨hl, hs⟩, fun h ↦ ⟨h.live, h.isScaffold⟩⟩

/-- The instructions stay in one piece, and jumps that leave it stay jumps that leave it. -/
structure Spares (ids : List InstrId) (p q : Program) : Prop where
  isInfix : ids <:+: q.order
  outside : ∀ u ∈ ids, (∃ t ∈ (q.fetch u).targets, t ∉ ids) ↔ ∃ t ∈ (p.fetch u).targets, t ∉ ids

theorem Spares.trans (h : Spares ids p q) (h' : Spares ids q r) : Spares ids p r where
  isInfix := h'.isInfix
  outside u hu := (h'.outside u hu).trans (h.outside u hu)

theorem Spares.range (h : Spares (body ++ [m.exit]) p q)
    (hbody : p.range m.head m.exit = .ok body) : q.range m.head m.exit = .ok body :=
  range_of_isInfix h.isInfix (head?_of_range_append hbody)

end Program

open Program

section Spares

variable {p q p₁ p₂ p₃ : Program} {s : Setup} {l m : Loop} {guard : Expr}
  {condition : LoopCondition} {body ids : List InstrId} {points : Option IterationPoints}
  {assumption : Option InstrId} {target : InstrId}

theorem Scaffolded.spares (h : Scaffolded s l guard body p q)
    (hbody : p.range l.head l.exit = .ok body) (hids : p.range m.head m.exit = .ok ids)
    (hlm : p.Later l m) : Spares (ids ++ [m.exit]) p q := by
  have hl := exists_range_iff_isLoop.1 ⟨body, hbody⟩
  refine ⟨h.splice.isInfix_of_notMem_tail (isInfix_of_range hids) (hlm.head_notMem_tail hl hids),
    fun u hu ↦ ?_⟩
  have hup := ((mem_range_append_iff hids).1 hu).1
  have hne : u ≠ l.exit := fun e ↦ hlm.exit_notMem hl hids (e ▸ hu)
  rw [fetch_eq (h.get?_old u hup), entered, if_neg hne]
  split
  · rfl
  · next hout =>
    refine Instruction.exists_mem_targets_redirect_iff (fun hmem ↦ ?_) fun hmem ↦ ?_
    · rcases hlm.subset_or_disjoint hbody hids with hin | hdisjoint
      · exact hout (hin u hu)
      · exact hdisjoint _ hmem (List.mem_of_mem_head? (head?_of_range_append hbody))
    · exact p.fresh_notMem_order ((mem_range_append_iff hids).1 hmem).1

theorem Unwound.spares {builder : GuardBuilder} {behind marker : InstrId}
    {copy : InstrId → InstrId} {jump : Option InstrId}
    (h : Unwound p q body l.exit behind builder copy jump marker) (hl : p.IsLoop l)
    (hids : p.range m.head m.exit = .ok ids) (hlm : p.Later l m) :
    Spares (ids ++ [m.exit]) p q where
  isInfix := h.isInfix (isInfix_of_range hids) (hlm.exit_notMem hl hids)
  outside u hu := by rw [h.fetch_old ((mem_range_append_iff hids).1 hu).1]

theorem Forwarded.spares (h : Forwarded s l condition target p q) (hl : p.IsLoop l)
    (hids : p.range m.head m.exit = .ok ids) (hlm : p.Later l m)
    (htarget : condition.branch ∈ ids ++ [m.exit] → target ∉ ids ++ [m.exit]) :
    Spares (ids ++ [m.exit]) p q where
  isInfix := h.splice.isInfix_of_notMem_dropLast (isInfix_of_range hids) hl.exit_mem fun hmem ↦
    hlm.exit_notMem hl hids (List.dropLast_subset _ hmem)
  outside u hu := by
    have hup := ((mem_range_append_iff hids).1 hu).1
    have hne : u ≠ l.exit := fun e ↦ hlm.exit_notMem hl hids (e ▸ hu)
    rw [fetch_eq (h.get?_old u hup), if_neg hne]
    split
    · next hbranch =>
      refine Instruction.exists_mem_targets_redirect_iff (htarget (hbranch ▸ hu)) fun hmem ↦ ?_
      exact p.fresh_notMem_order ((mem_range_append_iff hids).1 hmem).1
    · rfl

theorem Assumed.spares {asserts : List InstrId} (h : Assumed asserts p q)
    (hids : p.range m.head m.exit = .ok ids) : Spares (ids ++ [m.exit]) p q where
  isInfix := by
    rw [h.order]
    exact isInfix_of_range hids
  outside u hu := by rw [h.targets_eq ((mem_range_append_iff hids).1 hu).1]

theorem spares_refl (hids : p.range m.head m.exit = .ok ids) : Spares (ids ++ [m.exit]) p p :=
  ⟨isInfix_of_range hids, fun _ _ ↦ .rfl⟩

/-- Converting a loop interferes with no loop that is still to come. -/
theorem Converted.spares (h : Converted s l body condition points assumption p p₁ p₂ p₃ q)
    (hcond : p.HasCondition l body condition) (hids : p.range m.head m.exit = .ok ids)
    (hlm : p.Later l m) : Spares (ids ++ [m.exit]) p q := by
  have hl := exists_range_iff_isLoop.1 ⟨body, hcond.range⟩
  have hm := exists_range_iff_isLoop.1 ⟨ids, hids⟩
  have h₁ := h.scaffolded.spares hcond.range hids hlm
  have hext₁ := h.scaffolded.extension
  have h₂ : Spares (ids ++ [m.exit]) p₁ p₂ := by
    obtain heq | ⟨_, _, _, _, hunwound⟩ := h.unwound.eq_or_exists
    · rw [heq]
      exact spares_refl (h₁.range hids)
    · exact hunwound.spares (hl.of_extends hext₁) (h₁.range hids) (hlm.of_extends hext₁ hl hm)
  have hext₂ := hext₁.trans h.unwound.extension
  have h₁₂ := h₁.trans h₂
  have h₃ : Spares (ids ++ [m.exit]) p₂ p₃ := by
    obtain heq | ⟨target, -, htarget, hforwarded⟩ := h.forwarded.eq_or_exists
    · rw [heq]
      exact spares_refl (h₁₂.range hids)
    · refine hforwarded.spares (hl.of_extends hext₂) (h₁₂.range hids) (hlm.of_extends hext₂ hl hm)
        fun hbranch hmem ↦ (hcond.mem_targets_of_exitTarget htarget).2 ?_
      -- a loop that the branch lies in lies in the body, and so does the target
      rcases hlm.subset_or_disjoint hcond.range hids with hin | hdisjoint
      · exact List.mem_append_left _ (hin target hmem)
      · exact absurd (List.mem_append_left _ hcond.branch_mem) (hdisjoint _ hbranch)
  have h₄ : Spares (ids ++ [m.exit]) p₃ q := by
    obtain heq | ⟨_, hassumed⟩ := h.assumed.eq_or_exists
    · rw [heq]
      exact spares_refl ((h₁₂.trans h₃).range hids)
    · exact hassumed.spares ((h₁₂.trans h₃).range hids)
  exact (h₁₂.trans h₃).trans h₄

end Spares

/-! ### What decides about a loop -/

namespace Program

variable {p₀ p q : Program} {s : Setup} {l m : Loop} {body : List InstrId} {branch : InstrId}
  {todo : List Loop} {name : String}

/-- What a loop needs to be converted, where it has a conditional jump: its exit is a jump; with a
copy of the body, the exit does not end the program; and with an assumption behind the loop too, the
first conditional jump has a target outside. -/
def Admits (p : Program) (c : Config) (l : Loop) : Prop :=
  ∀ body branch, p.range l.head l.exit = .ok body →
    body.find? (fun id ↦ (p.fetch id).isConditionalJump) = some branch →
      (p.fetch l.exit).isGoto = true ∧
        (c.duplicateBody = true → p.last? ≠ some l.exit) ∧
        (c.duplicateBody = true → c.forwardCondition = true →
          ∃ t ∈ (p.fetch branch).targets, t ∉ body ++ [l.exit])

theorem admits_iff {c : Config} (hbody : p.range l.head l.exit = .ok body)
    (hbranch : body.find? (fun id ↦ (p.fetch id).isConditionalJump) = some branch) :
    p.Admits c l ↔ (p.fetch l.exit).isGoto = true ∧
      (c.duplicateBody = true → p.last? ≠ some l.exit) ∧
        (c.duplicateBody = true → c.forwardCondition = true →
          ∃ t ∈ (p.fetch branch).targets, t ∉ body ++ [l.exit]) := by
  constructor
  · intro h
    exact h body branch hbody hbranch
  · intro h body' branch' hbody' hbranch'
    cases hbody.symm.trans hbody'
    cases hbranch.symm.trans hbranch'
    exact h

/-- The loops that are still to come are in `p` as they were in `p₀`. -/
structure Pending (p₀ : Program) (todo : List Loop) (p : Program) : Prop where
  extension : p₀.Extends p
  live : p.TargetsLive
  last? : p.last? = p₀.last?
  isLoop : ∀ m ∈ todo, p₀.IsLoop m
  later : todo.Pairwise p₀.Later
  spares : ∀ m ∈ todo, ∀ body, p₀.range m.head m.exit = .ok body →
    Spares (body ++ [m.exit]) p₀ p

theorem Clean.pending {loops : List Loop} (hclean : p₀.Clean) (hnest : p₀.Nest loops) :
    Pending p₀ (p₀.turns loops) p₀ where
  extension := .refl p₀
  live := hclean.live
  last? := rfl
  isLoop m hm := hnest.isLoop m ((p₀.turns_perm loops).subset hm)
  later := hnest.pairwise_later
  spares _ _ _ hbody := spares_refl hbody

namespace Pending

/-- Conversion looks at the jump in the body that it would have looked at in the input. -/
theorem find?_eq (h : Pending p₀ todo p) (hbody : p₀.range l.head l.exit = .ok body) :
    body.find? (fun id ↦ (p.fetch id).isConditionalJump) =
      body.find? fun id ↦ (p₀.fetch id).isConditionalJump :=
  List.find?_congr fun u hu ↦
    (h.extension.retained u ((mem_range_iff hbody).1 hu).1).isConditionalJump_eq

variable (h : Pending p₀ (l :: todo) p)

include h

theorem range (hbody : p₀.range l.head l.exit = .ok body) : p.range l.head l.exit = .ok body :=
  (h.spares l List.mem_cons_self body hbody).range hbody

/-- The condition that a loop has is taken from the jump that it was taken from in the input. -/
theorem find?_of_hasCondition {condition : LoopCondition}
    (hcond : p.HasCondition l body condition) :
    p₀.range l.head l.exit = .ok body ∧
      body.find? (fun id ↦ (p₀.fetch id).isConditionalJump) = some condition.branch := by
  obtain ⟨ids, hids⟩ := exists_range_iff_isLoop.2 (h.isLoop l List.mem_cons_self)
  cases (h.range hids).symm.trans hcond.range
  exact ⟨hids, (h.find?_eq hids).symm.trans hcond.branch⟩

/-- The condition that a loop has is the one that it had in the input, up to its targets. -/
theorem exists_hasCondition {condition : LoopCondition} (hcond : p.HasCondition l body condition) :
    ∃ condition₀, p₀.HasCondition l body condition₀ ∧ condition₀.branch = condition.branch ∧
      condition₀.guard = condition.guard := by
  obtain ⟨hbody, hbranch⟩ := h.find?_of_hasCondition hcond
  have hcond₀ := hasCondition_conditionAt hbody hbranch
  have hretained := h.extension.retained _ hcond₀.branch_mem_order
  exact ⟨_, hcond₀, rfl, hcond₀.guard_eq.trans (hretained.guard_eq.symm.trans hcond.guard_eq.symm)⟩

theorem ready (hclean : p₀.Clean) (hbody : p₀.range l.head l.exit = .ok body) :
    p.Ready s l body where
  live := h.live
  head := by
    have hhead := (range_eq_ok hbody).1
    rw [(h.extension.retained _ hhead).isScaffold_eq, hclean.isScaffold _ hhead]
  body _ u hu := by
    have hup := ((mem_range_iff hbody).1 hu).1
    rw [(h.extension.retained _ hup).isScaffold_eq, hclean.isScaffold _ hup]

/-- Whether the passes find what they need can be read off the input. -/
theorem convertible_iff {condition : LoopCondition} (hcond : p.HasCondition l body condition) :
    p.Convertible s l condition ↔ p₀.Admits s.config l := by
  obtain ⟨hbody, hbranch⟩ := h.find?_of_hasCondition hcond
  have hgoto := (h.extension.retained _ (range_eq_ok hbody).2.1).isGoto_eq
  have hout : condition.exitTarget ≠ none ↔
      ∃ t ∈ (p₀.fetch condition.branch).targets, t ∉ body ++ [l.exit] :=
    hcond.exitTarget_ne_none_iff.trans
      ((h.spares l List.mem_cons_self body hbody).outside condition.branch
        (List.mem_append_left _ hcond.branch_mem))
  rw [admits_iff hbody hbranch]
  constructor
  · intro hconv
    refine ⟨hgoto ▸ hconv.exit_isGoto, fun hdup ↦ h.last? ▸ hconv.exit_not_last hdup,
      fun hdup hforward ↦ hout.1 (hconv.exitTarget ?_)⟩
    rw [Config.assumesAfter, hdup, hforward]
    rfl
  · rintro ⟨hexit, hlast, htarget⟩
    refine ⟨hgoto.symm ▸ hexit, fun hdup ↦ h.last?.symm ▸ hlast hdup, fun hafter ↦ ?_⟩
    rw [Config.assumesAfter, Bool.and_eq_true] at hafter
    exact hout.2 (htarget hafter.1 hafter.2)

/-- A loop that has no condition had none in the input. -/
theorem loopCondition_eq_none (hnone : p.loopCondition l.head l.exit = .ok none) :
    p₀.loopCondition l.head l.exit = .ok none := by
  obtain ⟨body, hbody⟩ := exists_range_iff_isLoop.2 (h.isLoop l List.mem_cons_self)
  rw [loopCondition_eq (h.range hbody), Except.ok.injEq, Option.map_eq_none_iff,
    h.find?_eq hbody] at hnone
  rw [loopCondition_eq hbody, hnone]
  rfl

/-- A loop that nothing happens to leaves the others as they are. -/
theorem skip : Pending p₀ todo p where
  extension := h.extension
  live := h.live
  last? := h.last?
  isLoop m hm := h.isLoop m (List.mem_cons_of_mem _ hm)
  later := (List.pairwise_cons.1 h.later).2
  spares m hm := h.spares m (List.mem_cons_of_mem _ hm)

/-- Converting a loop leaves the others as they are. -/
theorem converted {condition : LoopCondition} {points : Option IterationPoints}
    {assumption : Option InstrId} {p₁ p₂ p₃ : Program}
    (hcond : p.HasCondition l body condition)
    (hconv : Converted s l body condition points assumption p p₁ p₂ p₃ q) :
    Pending p₀ todo q where
  extension := h.extension.trans hconv.extension
  live := hconv.targetsLive hcond.range h.live
  last? := (hconv.last?_eq hcond.range).trans h.last?
  isLoop := h.skip.isLoop
  later := h.skip.later
  spares m hm ids hids := by
    have hspares := h.skip.spares m hm ids hids
    have hlm := (List.pairwise_cons.1 h.later).1 m hm
    exact hspares.trans (hconv.spares hcond (hspares.range hids)
      (hlm.of_extends h.extension (h.isLoop l List.mem_cons_self) (h.skip.isLoop m hm)))

/-- A loop that is dealt with leaves the others as they are. -/
theorem dealt {v : Verdict} (hd : Dealt s name l p v q) : Pending p₀ todo q := by
  cases hd with
  | skipped => exact h.skip
  | converted hcond hconv => exact h.converted hcond hconv

/-- A loop that the input admits is dealt with without a fault. -/
theorem run_convertLoop (hclean : p₀.Clean) (hadmits : p₀.Admits s.config l) :
    ∃ v q, (Edit.atLoop name l (Edit.convertLoop s name l)).run p = .ok v q ∧
      Dealt s name l p v q := by
  obtain ⟨body, hbody⟩ := exists_range_iff_isLoop.2 (h.isLoop l List.mem_cons_self)
  exact Edit.run_atLoop_convertLoop name (h.range hbody) (h.ready hclean hbody)
    fun _ hcond ↦ (h.convertible_iff hcond).2 hadmits

theorem run_convertLoop_error (hclean : p₀.Clean) (hadmits : ¬ p₀.Admits s.config l) :
    ∃ e q, (Edit.atLoop name l (Edit.convertLoop s name l)).run p = .error e q := by
  obtain ⟨body, hbody⟩ := exists_range_iff_isLoop.2 (h.isLoop l List.mem_cons_self)
  cases hbranch : body.find? fun id ↦ (p₀.fetch id).isConditionalJump with
  | none =>
    refine absurd (fun body' branch' hbody' hbranch' ↦ ?_) hadmits
    cases hbody.symm.trans hbody'
    cases hbranch.symm.trans hbranch'
  | some branch =>
    have hcond := hasCondition_conditionAt (h.range hbody) ((h.find?_eq hbody).trans hbranch)
    exact Edit.run_atLoop_convertLoop_error name hcond (h.ready hclean hbody)
      ((h.convertible_iff hcond).not.2 hadmits)

/-- Where no fault arises, the loop is dealt with. -/
theorem dealt_of_run (hclean : p₀.Clean) {v : Verdict}
    (hrun : (Edit.atLoop name l (Edit.convertLoop s name l)).run p = .ok v q) :
    Dealt s name l p v q := by
  by_cases hadmits : p₀.Admits s.config l
  · obtain ⟨v', q', hrun', hd⟩ := h.run_convertLoop hclean hadmits
    rw [hrun] at hrun'
    cases hrun'
    exact hd
  · obtain ⟨e, q', herror⟩ := h.run_convertLoop_error hclean hadmits
    rw [hrun] at herror
    cases herror

end Pending

end Program

/-- Where the loops of a function are pairwise apart, what holds before any of them is dealt with
and is kept by dealing with the next one holds in the end. It may speak of the loops that are done,
with their verdicts. -/
theorem invariant_of_run_convertFunction {p q : Program} {s : Setup} {discovery : Discovery}
    {name : String} {vs : List Verdict} {I : List (Loop × Verdict) → Program → Prop}
    (hclean : p.Clean) (hapart : (discovery name p).Pairwise p.Apart)
    (hrun : (convertFunction s discovery name).run p = .ok vs q) (hstart : I [] p)
    (step : ∀ done m todo r v t, done.map Prod.fst ++ m :: todo = p.turns (discovery name p) →
      (∀ l ∈ done.map Prod.fst, p.IsLoop l ∧ p.Later l m) → Pending p (m :: todo) r →
      (Edit.atLoop name m (Edit.convertLoop s name m)).run r = .ok v t →
      Dealt s name m r v t → I done r → I (done ++ [(m, v)]) t) :
    ∃ pairs, pairs.map Prod.fst = p.turns (discovery name p) ∧ pairs.map Prod.snd = vs ∧
      Pending p [] q ∧ I pairs q := by
  have hrange := exists_range_of_run_convertFunction hrun
  have hnest : p.Nest (discovery name p) :=
    ⟨fun l hl ↦ exists_range_iff_isLoop.1 (hrange l hl), hapart⟩
  have hperm := p.turns_perm (discovery name p)
  have hlater := hnest.pairwise_later
  rw [run_convertFunction hrange] at hrun
  -- what is done and what is to come make up all the loops
  obtain ⟨pairs, hfst, hsnd, -, hpending, hI⟩ := EStateM.invariant_of_run_mapM
    (I := fun done todo q ↦ done.map Prod.fst ++ todo = p.turns (discovery name p) ∧
      Pending p todo q ∧ I done q)
    (fun done m todo r v t ⟨hall, hpending, hI⟩ hstep ↦ by
      have hd := hpending.dealt_of_run hclean hstep
      refine ⟨by rw [← hall, List.map_append, List.append_assoc]; rfl, hpending.dealt hd,
        step done m todo r v t hall (fun l hl ↦ ?_) hpending hstep hd hI⟩
      rw [← hall] at hlater hperm
      exact ⟨hnest.isLoop l (hperm.subset (List.mem_append_left _ hl)),
        (List.pairwise_append.1 hlater).2.2 l hl m List.mem_cons_self⟩)
    ⟨rfl, hclean.pending hnest, hstart⟩ hrun
  exact ⟨pairs, hfst, hsnd, hpending, hI⟩

/-- What holds of each loop that was dealt with and its verdict holds of each verdict and one of the
discovered loops. -/
theorem exists_mem_of_mem_verdicts {p : Program} {loops : List Loop} {vs : List Verdict}
    {pairs : List (Loop × Verdict)} {K : Loop → Verdict → Prop}
    (hfst : pairs.map Prod.fst = p.turns loops) (hsnd : pairs.map Prod.snd = vs)
    (h : ∀ e ∈ pairs, K e.1 e.2) : ∀ v ∈ vs, ∃ l ∈ loops, K l v := by
  intro v hv
  rw [← hsnd] at hv
  obtain ⟨e, he, rfl⟩ := List.mem_map.1 hv
  exact ⟨e.1, (p.turns_perm loops).subset (hfst ▸ List.mem_map_of_mem he), h e he⟩

/-- The loops of a function are converted without a fault exactly if each of them is admitted. -/
theorem convertFunction_ok_iff {p : Program} {s : Setup} {discovery : Discovery} {name : String}
    (hclean : p.Clean) (hnest : p.Nest (discovery name p)) :
    (∃ vs q, (convertFunction s discovery name).run p = .ok vs q) ↔
      ∀ l ∈ discovery name p, p.Admits s.config l := by
  have hpending := hclean.pending hnest
  have hperm := p.turns_perm (discovery name p)
  rw [run_convertFunction fun l hl ↦ exists_range_iff_isLoop.2 (hnest.isLoop l hl)]
  by_cases hall : ∀ l ∈ discovery name p, p.Admits s.config l
  · refine iff_of_true ?_ hall
    obtain ⟨vs, q, hrun, -⟩ := EStateM.run_mapM_of_invariant
      (I := fun todo q ↦ p.Pending todo q ∧ ∀ l ∈ todo, p.Admits s.config l)
      (f := fun l ↦ Edit.atLoop name l (Edit.convertLoop s name l))
      (fun l todo q ⟨h, hadmits⟩ ↦ by
        obtain ⟨v, r, hrun, hd⟩ := h.run_convertLoop hclean (hadmits l List.mem_cons_self)
        exact ⟨v, r, hrun, h.dealt hd, fun m hm ↦ hadmits m (List.mem_cons_of_mem _ hm)⟩)
      ⟨hpending, fun l hl ↦ hall l (hperm.subset hl)⟩
    exact ⟨vs, q, hrun⟩
  · refine iff_of_false ?_ hall
    rintro ⟨vs, q, hrun⟩
    have hbad : ∃ l ∈ p.turns (discovery name p), ¬ p.Admits s.config l := by
      by_contra hcon
      exact hall fun l hl ↦ by_contra fun h ↦ hcon ⟨l, hperm.symm.subset hl, h⟩
    obtain ⟨e, r, herror⟩ := EStateM.run_mapM_error
      (f := fun l ↦ Edit.atLoop name l (Edit.convertLoop s name l))
      (fun l todo q h hadmits ↦ by
        obtain ⟨v, r, hrun, hd⟩ := h.run_convertLoop hclean hadmits
        exact ⟨v, r, hrun, h.dealt hd⟩)
      (fun l todo q h ↦ h.run_convertLoop_error hclean) hpending hbad
    rw [hrun] at herror
    cases herror

/-- A run over functions without scaffolding, with live targets, and with loops that are pairwise
apart succeeds exactly if each loop is admitted in the function as it was given. -/
theorem Functions.run_ok_iff_admits {fs : Functions} {s : Setup} {discovery : Discovery}
    (hclean : ∀ name f, fs.get? name = some f → f.bodyAvailable = true → f.body.Clean)
    (hnest : ∀ name f, fs.get? name = some f → f.bodyAvailable = true →
      f.body.Nest (discovery name f.body)) :
    (∃ report, (fs.run s discovery).progress.outcome = .ok report) ↔
      ∀ name f, fs.get? name = some f → f.bodyAvailable = true →
        ∀ l ∈ discovery name f.body, f.body.Admits s.config l := by
  rw [run_ok_iff]
  refine forall_congr' fun name ↦ forall_congr' fun f ↦ imp_congr_right fun hf ↦ ?_
  rw [Function.convert]
  cases havailable : f.bodyAvailable with
  | false => simp
  | true =>
    rw [← convertFunction_ok_iff (hclean name f hf havailable) (hnest name f hf havailable)]
    simp only [if_true, forall_const]
    cases (convertFunction s discovery name).run f.body with
    | ok vs q => simp
    | error e q => simp

/-- A loop with another one inside, each of them left by its first instruction. -/
def nestedLoops : Program :=
  .ofList [.goto ⟨6⟩ (.var ⟨"done", .bool⟩), .goto ⟨4⟩ (.var ⟨"found", .bool⟩),
    .assert (.var ⟨"safe", .bool⟩), .goto ⟨1⟩ (.bool true), .skip, .goto ⟨0⟩ (.bool true),
    .endFunction]

/-- The loops of `nestedLoops`, the inner one first. -/
def nestedLoops.loops : List Loop :=
  [⟨⟨1⟩, ⟨3⟩, []⟩, ⟨⟨0⟩, ⟨5⟩, [⟨"found", .bool⟩]⟩]

theorem Functions.run_ok_nestedLoops :
    ∃ report, ((single "main" nestedLoops).run { config := .full }
      fun _ _ ↦ nestedLoops.loops).progress.outcome = .ok report := by
  refine (run_ok_iff_admits (fun name f hf _ ↦ ?_) fun name f hf _ ↦ ?_).2 fun name f hf _ l hl ↦ ?_
  · rw [(eq_of_get?_single hf).2]
    decide
  · rw [(eq_of_get?_single hf).2]
    decide
  · rw [(eq_of_get?_single hf).2]
    rcases List.mem_pair.1 hl with rfl | rfl
    · have hbody : nestedLoops.range ⟨1⟩ ⟨3⟩ = .ok [⟨1⟩, ⟨2⟩] := by decide
      exact (admits_iff hbody (show List.find? _ _ = some ⟨1⟩ by decide)).2 (by decide)
    · have hbody : nestedLoops.range ⟨0⟩ ⟨5⟩ = .ok [⟨0⟩, ⟨1⟩, ⟨2⟩, ⟨3⟩, ⟨4⟩] := by decide
      exact (admits_iff hbody (show List.find? _ _ = some ⟨0⟩ by decide)).2 (by decide)

end LoopInduction
