import LoopInduction.Proofs.Conversion.Leaving
import LoopInduction.Proofs.Conversion.Originals

/-!
# The assertions in the copy of a loop

The body of a loop is copied before its assertions become assumptions, so that the copy checks what
the loop assumes from then on. Where one loop lies inside another, the outer one is converted first,
and makes assumptions of the assertions of both. By the time the inner one is copied nothing is left
to check in it. So the copy of a loop has the assertions of its body exactly if the loop lies in the
body of no other one (`Functions.run_copiedAssertions`).

## Main definitions

* `Program.FromSource` : a program that nothing was written into yet.
* `Program.Assuming` : an instruction lies in the body of a loop that is converted.
* `Downgraded` : which assertions of the input have become assumptions.
* `CopiedInFront` : the copies of some instructions stand in front of an exit.
* `Unrolled` : what a run keeps of the copy of a converted loop.
* `AssertionCopied` : what becomes of an assertion and of its copy.

## Main results

* `Functions.run_copiedAssertions` : the assertions of a loop and their copies after a run.
-/

namespace LoopInduction

namespace Program

variable {p q : Program} {l m : Loop} {body : List InstrId} {a : InstrId}

/-- All instructions come from the front end, and all targets are live. -/
structure FromSource (p : Program) : Prop where
  live : p.TargetsLive
  origin : ∀ id ∈ p.order, (p.fetch id).origin = .source

instance : Decidable p.FromSource :=
  decidable_of_iff (p.TargetsLive ∧ ∀ id ∈ p.order, (p.fetch id).origin = .source)
    ⟨fun ⟨hl, ho⟩ ↦ ⟨hl, ho⟩, fun h ↦ ⟨h.live, h.origin⟩⟩

theorem FromSource.clean (h : p.FromSource) : p.Clean where
  live := h.live
  isScaffold id hid := by
    rw [Instruction.isScaffold, h.origin id hid]
    rfl

/-- What is copied of a body does not change. -/
theorem Extends.kept_eq (h : p.Extends q) (hbody : ∀ u ∈ body, u ∈ p.order) :
    q.kept body = p.kept body := by
  have hcopied : q.copied body = p.copied body := List.filter_congr fun u hu ↦ by
    rw [(h.retained u (hbody u hu)).isScaffold_eq]
  rw [kept, kept, hcopied]
  refine List.filter_congr fun u hu ↦ ?_
  have hskip : (q.fetch u).isSkip = (p.fetch u).isSkip :=
    (h.retained u (hbody u (mem_copied.1 hu).1)).kind_beq (by decide) (by decide)
  rw [hskip]

end Program

open Program

variable {p₀ p q r p₁ p₂ p₃ : Program} {s : Setup} {l m : Loop} {guard : Expr}
  {condition : LoopCondition} {body us : List InstrId} {a target : InstrId}
  {copy : InstrId → InstrId} {points : Option IterationPoints} {pts : IterationPoints}
  {assumption : Option InstrId} {name : String}

/-! ### Kinds -/

theorem Scaffolded.kind_eq (h : Scaffolded s l guard body p q) (ha : a ∈ p.order) :
    (q.fetch a).kind = (p.fetch a).kind := by
  rw [fetch_eq (h.get?_old a ha), entered]
  split
  · rfl
  · split
    · rfl
    · rw [Instruction.redirect_eq_with]

theorem Forwarded.kind_eq (h : Forwarded s l condition target p q) (ha : a ∈ p.order) :
    (q.fetch a).kind = (p.fetch a).kind := by
  rw [fetch_eq (h.get?_old a ha)]
  split
  · rfl
  · split
    · rw [Instruction.redirect_eq_with]
    · rfl

/-- Up to the pass over the assertions no kind changes. -/
theorem Converted.kind_eq (h : Converted s l body condition points assumption p p₁ p₂ p₃ q)
    (ha : a ∈ p.order) : (p₃.fetch a).kind = (p.fetch a).kind := by
  have ha₁ := h.scaffolded.extension.mem ha
  have h₃ : (p₃.fetch a).kind = (p₂.fetch a).kind := by
    obtain heq | ⟨_, -, -, hforwarded⟩ := h.forwarded.eq_or_exists
    · rw [heq]
    · exact hforwarded.kind_eq (h.unwound.extension.mem ha₁)
  rw [h₃, h.unwound.fetch_old ha₁, h.scaffolded.kind_eq ha]

/-- The assumptions of a converted loop are those it had and its assertions of the front end. -/
theorem Converted.isAssume_iff (h : Converted s l body condition points assumption p p₁ p₂ p₃ q)
    (hasserts : s.config.convertAsserts = true) (hbody : p.range l.head l.exit = .ok body)
    (ha : a ∈ p.order) : (q.fetch a).isAssume = true ↔
      (p.fetch a).isAssume = true ∨ a ∈ body ∧ (p.fetch a).isSourceAssertion = true := by
  have hext := h.scaffolded.extension.trans (h.unwound.extension.trans h.forwarded.extension)
  have hassumed := h.assumed
  rw [AssumedIf, if_pos hasserts] at hassumed
  obtain ⟨ids, hids, hassumed⟩ := hassumed
  have hkind := h.kind_eq ha
  have hassert : (p₃.fetch a).isSourceAssertion = (p.fetch a).isSourceAssertion := by
    rw [Instruction.isSourceAssertion, Instruction.isSourceAssertion, Instruction.isAssert,
      Instruction.isAssert, hkind, (hext.retained a ha).origin_eq]
  rw [fetch_eq (hassumed.get? a (hext.mem ha)), hassert]
  rw [← mem_range_iff_of_sublist hext.sublist hbody hids ha]
  split
  · next hin => exact iff_of_true rfl (.inr hin)
  · next hout => rw [or_iff_left hout, Instruction.isAssume, Instruction.isAssume, hkind]

/-! ### Which assertions have become assumptions -/

/-- The instruction lies in the body of one of the loops that have a condition. -/
def Program.Assuming (p : Program) (loops : List Loop) (a : InstrId) : Prop :=
  ∃ m ∈ loops, p.InBody m a ∧ ∃ c, p.loopCondition m.head m.exit = .ok (some c)

/-- Once the loops `done` have been dealt with, the assertions in the bodies of those that have a
condition are assumptions, and no others. -/
def Downgraded (p₀ : Program) (done : List Loop) (p : Program) : Prop :=
  ∀ a ∈ p₀.order, (p₀.fetch a).isSourceAssertion = true →
    ((p.fetch a).isAssume = true ↔ p₀.Assuming done a)

section

variable {done before after todo : List Loop} {v : Verdict}

theorem Program.assuming_append_iff : p.Assuming (done ++ [m]) a ↔ p.Assuming done a ∨
    p.InBody m a ∧ ∃ c, p.loopCondition m.head m.exit = .ok (some c) := by
  simp only [Assuming, List.mem_append, List.mem_singleton, or_and_right, exists_or,
    exists_eq_left]

theorem downgraded_nil (p : Program) : Downgraded p [] p := by
  intro a _ hassert
  refine iff_of_false (fun hassume ↦ ?_) fun ⟨m, hm, _⟩ ↦ absurd hm List.not_mem_nil
  rw [Instruction.isAssume, (Instruction.isSourceAssertion_iff.1 hassert).1] at hassume
  cases hassume

/-- Dealing with a loop that has a condition makes assumptions of its assertions. -/
theorem Downgraded.dealt (h : Downgraded p₀ done p) (hp : Pending p₀ (m :: todo) p)
    (hasserts : s.config.convertAsserts = true)
    (hrun : (Edit.atLoop name m (Edit.convertLoop s name m)).run p = .ok v q)
    (hd : Dealt s name m p v q) : Downgraded p₀ (done ++ [m]) q := by
  intro a ha hassert
  rw [assuming_append_iff, ← h a ha hassert]
  cases hd with
  | skipped =>
    have hnone := hp.loopCondition_eq_none
      (Edit.loopCondition_of_run_skipped (Edit.run_of_run_atLoop hrun))
    simp [hnone]
  | converted hcond hconv =>
    obtain ⟨hbody, hbranch⟩ := hp.find?_of_hasCondition hcond
    have hsome : ∃ c, p₀.loopCondition m.head m.exit = .ok (some c) :=
      ⟨_, loopCondition_eq_some (hasCondition_conditionAt hbody hbranch)⟩
    rw [hconv.isAssume_iff hasserts hcond.range (hp.extension.mem ha), inBody_iff_mem hbody ha,
      and_iff_left hsome]
    have hretained := hp.extension.retained a ha
    rcases hretained.kind with hkind | ⟨-, hkind⟩
    · have hstill : (p.fetch a).isSourceAssertion = true := by
        rw [Instruction.isSourceAssertion_iff, hkind, hretained.origin_eq]
        exact Instruction.isSourceAssertion_iff.1 hassert
      rw [and_iff_left hstill]
    · have hassume : (p.fetch a).isAssume = true := by
        rw [Instruction.isAssume, hkind]
        rfl
      simp only [hassume, true_or]

/-- A loop has a condition if its body has a conditional jump. -/
theorem Program.exists_loopCondition_iff (hbody : p.range l.head l.exit = .ok body) :
    (∃ c, p.loopCondition l.head l.exit = .ok (some c)) ↔
      ∃ u ∈ body, (p.fetch u).isConditionalJump = true := by
  simp only [loopCondition_eq hbody, Except.ok.injEq, Option.map_eq_some_iff]
  rw [← List.find?_isSome, Option.isSome_iff_exists]
  constructor
  · rintro ⟨_, u, hu, -⟩
    exact ⟨u, hu⟩
  · rintro ⟨u, hu⟩
    exact ⟨_, u, hu, rfl⟩

/-- Of the loops that are dealt with before another one, those that have its assertions and a
condition are those that it lies in. -/
theorem Program.assuming_iff_within {loops : List Loop} (hnest : p.Nest loops)
    (hall : p.turns loops = before ++ l :: after) (hbody : p.range l.head l.exit = .ok body)
    (ha : a ∈ body) (hcond : ∃ c, p.loopCondition l.head l.exit = .ok (some c)) :
    p.Assuming before a ↔ ∃ m ∈ loops, p.Within l m := by
  have hperm := p.turns_perm loops
  have hlater := hnest.pairwise_later
  rw [hall] at hperm hlater
  obtain ⟨-, hafter, hbefore⟩ := List.pairwise_append.1 hlater
  have hisLoop : ∀ m ∈ before ++ l :: after, p.IsLoop m := fun m hm ↦
    hnest.isLoop m (hperm.subset hm)
  have hl := hisLoop l (by simp)
  obtain ⟨ha', hhead, hexit⟩ := (mem_range_iff hbody).1 ha
  constructor
  · rintro ⟨m, hm, hin, -⟩
    exact ⟨m, hperm.subset (List.mem_append_left _ hm),
      (hbefore m hm l List.mem_cons_self).within_of_inBody hin ⟨hhead, hexit⟩⟩
  · rintro ⟨m, hm, hwithin⟩
    have hm := hperm.symm.subset hm
    rcases List.mem_append.1 hm with hmb | hma
    · refine ⟨m, hmb, ⟨hwithin.1.trans hhead, hexit.trans hwithin.2⟩, ?_⟩
      obtain ⟨ids, hids⟩ := exists_range_iff_isLoop.2 (hisLoop m hm)
      obtain ⟨u, hu, hjump⟩ := (exists_loopCondition_iff hbody).1 hcond
      obtain ⟨hup, huhead, huexit⟩ := (mem_range_iff hbody).1 hu
      exact (exists_loopCondition_iff hids).2 ⟨u, (mem_range_iff hids).2
        ⟨hup, hwithin.1.trans huhead, huexit.trans hwithin.2⟩, hjump⟩
    · rcases List.mem_cons.1 hma with rfl | hma
      · exact absurd hwithin.2 (Nat.lt_irrefl _)
      · exact absurd hwithin (((List.pairwise_cons.1 hafter).1 m hma).not_within hl
          (hisLoop m (by simp [hma])))

end

/-! ### The copies in front of an exit -/

theorem Instruction.Retained.eq_with_targets {i j : Instruction} (h : i.Retained j)
    (hi : i.origin ≠ .source) : j = { i with targets := j.targets } := by
  have hkind : j.kind = i.kind := h.kind.resolve_right fun ⟨hassert, _⟩ ↦
    hi (isSourceAssertion_iff.1 hassert).2
  conv_lhs => rw [h.eq_with, hkind]

/-- Copies of the instructions `us` of `r`, none of which was in `p₀`, stand in one piece right in
front of an exit. -/
structure CopiedInFront (p₀ r : Program) (us : List InstrId) (copy : InstrId → InstrId)
    (exit : InstrId) (p : Program) : Prop where
  isInfix : us.map copy ++ [exit] <:+: p.order
  notMem : ∀ u ∈ us, copy u ∉ p₀.order
  fetch : ∀ u ∈ us, ∃ ts, p.fetch (copy u) = { (r.fetch u).duplicate with targets := ts }

namespace CopiedInFront

variable {exit : InstrId}

/-- Copies stay what they are. -/
theorem of_extends (h : CopiedInFront p₀ r us copy exit p) (hext : p.Extends q)
    (hpiece : us.map copy ++ [exit] <:+: q.order) : CopiedInFront p₀ r us copy exit q where
  isInfix := hpiece
  notMem := h.notMem
  fetch u hu := by
    obtain ⟨ts, hts⟩ := h.fetch u hu
    have hmem : copy u ∈ p.order :=
      h.isInfix.subset (List.mem_append_left _ (List.mem_map_of_mem hu))
    rw [(hext.retained _ hmem).eq_with_targets (by rw [hts]; exact Origin.noConfusion), hts]
    exact ⟨_, rfl⟩

/-- Of the input only the exit is among them. -/
theorem eq_exit (h : CopiedInFront p₀ r us copy exit p) (hx : a ∈ us.map copy ++ [exit])
    (ha : a ∈ p₀.order) : a = exit := by
  rcases List.mem_append.1 hx with hx | hx
  · obtain ⟨u, hu, rfl⟩ := List.mem_map.1 hx
    exact absurd ha (h.notMem u hu)
  · exact List.mem_singleton.1 hx

/-- Converting another loop leaves the copies where they are. -/
theorem converted (h : CopiedInFront p₀ r us copy l.exit p) (hext : p₀.Extends p)
    (hm : p₀.IsLoop m) (hhead : m.head ≠ l.exit) (hexit : m.exit ≠ l.exit)
    (hconv : Converted s m body condition points assumption p p₁ p₂ p₃ q) :
    CopiedInFront p₀ r us copy l.exit q := by
  obtain ⟨-, -, hpiece⟩ := hconv.isInfix (hext.mem hm.exit_mem) h.isInfix
    (fun hmem ↦ hhead (h.eq_exit (List.mem_of_mem_tail hmem) hm.head_mem))
    fun hmem ↦ hexit (h.eq_exit hmem hm.exit_mem)
  exact h.of_extends hconv.extension hpiece

end CopiedInFront

/-- Converting a loop puts copies of its body in front of its exit. They are made before its
assertions become assumptions. -/
theorem Converted.copiedInFront
    (h : Converted s l body condition (some pts) assumption p p₁ p₂ p₃ q)
    (hbody : p.range l.head l.exit = .ok body) (hext : p₀.Extends p) (hexit : l.exit ∈ p₀.order) :
    ∃ copy, CopiedInFront p₀ p (p.kept body) copy l.exit q ∧
      pts.copyExit = ((p.kept body).map copy).getLast? := by
  obtain ⟨hdup, behind, copy, jump, hunwound, hcopyExit⟩ := h.unwound
  have hmem : ∀ u ∈ body, u ∈ p.order := fun u hu ↦ ((mem_range_iff hbody).1 hu).1
  have hext₁ := h.scaffolded.extension
  have hkept : p₁.kept body = p.kept body := hext₁.kept_eq hmem
  have hpiece₂ := hunwound.isInfix_copies
  rw [hkept] at hpiece₂ hcopyExit
  have hexit₂ := hunwound.extension.mem (hext₁.mem (hext.mem hexit))
  have hfront₂ : CopiedInFront p₀ p (p.kept body) copy l.exit p₂ := by
    refine ⟨hpiece₂, fun u hu hp₀ ↦ ?_, fun u hu ↦ ?_⟩
    · obtain ⟨r, hpr, hrq⟩ := hunwound.splice
      exact hrq.notMem_of_mem_new (List.mem_map_of_mem (hkept ▸ hu))
        (hpr.mem_old (hext₁.mem (hext.mem hp₀)))
    · obtain ⟨ts, hget, -⟩ := hunwound.get?_copy u (hkept ▸ hu)
      have hin := (mem_copied.1 (mem_kept.1 hu).1).1
      have hne : u ≠ l.exit := fun e ↦ notMem_of_range hbody (e ▸ hin)
      rw [← h.scaffolded.fetch_of_mem_body hin (hmem u hin) hne]
      exact ⟨ts, fetch_eq hget⟩
  have hpiece₃ : (p.kept body).map copy ++ [l.exit] <:+: p₃.order := by
    refine h.forwarded.isInfix hexit₂ hpiece₂ fun hmem ↦ ?_
    rw [List.dropLast_concat] at hmem
    obtain ⟨u, hu, he⟩ := List.mem_map.1 hmem
    exact hfront₂.notMem u hu (he ▸ hexit)
  refine ⟨copy, hfront₂.of_extends (h.forwarded.extension.trans h.assumed.extension) ?_, hcopyExit⟩
  rwa [h.assumed.order_eq]

/-! ### The run over a function -/

/-- What a run keeps of the copy of a converted loop, given the order in which the loops of the
function were dealt with. -/
structure Unrolled (p₀ : Program) (turns : List Loop) (l : Loop) (sm : LoopSummary) (p : Program) :
    Prop where
  head_eq : sm.head = l.head
  exit_eq : sm.exit = l.exit
  hasCondition : ∃ c, p₀.loopCondition l.head l.exit = .ok (some c)
  /-- The copies are those of the body as the loops before left it. -/
  copies : ∃ before after r body copy pts, turns = before ++ l :: after ∧ p₀.Extends r ∧
    Downgraded p₀ before r ∧ p₀.range l.head l.exit = .ok body ∧ sm.points = some pts ∧
    pts.copyExit = ((p₀.kept body).map copy).getLast? ∧
    CopiedInFront p₀ r (p₀.kept body) copy l.exit p

section

variable {done todo loops : List Loop} {v : Verdict} {sm : LoopSummary}

/-- Converting a loop puts copies of the body that it had in the input in front of its exit. -/
theorem Program.Pending.copiedInFront (hp : Pending p₀ (l :: todo) p)
    (hdup : s.config.duplicateBody = true) (hcond : p.HasCondition l body condition)
    (hconv : Converted s l body condition points assumption p p₁ p₂ p₃ q) :
    ∃ copy pts, points = some pts ∧ pts.copyExit = ((p₀.kept body).map copy).getLast? ∧
      CopiedInFront p₀ p (p₀.kept body) copy l.exit q := by
  have hkept : p.kept body = p₀.kept body :=
    hp.extension.kept_eq fun u hu ↦ ((mem_range_iff (hp.find?_of_hasCondition hcond).1).1 hu).1
  cases points with
  | none => exact absurd hdup (by simp [hconv.unwound.1])
  | some pts =>
    obtain ⟨copy, hfront, hcopyExit⟩ :=
      hconv.copiedInFront hcond.range hp.extension (hp.isLoop l List.mem_cons_self).exit_mem
    rw [hkept] at hfront hcopyExit
    exact ⟨copy, pts, rfl, hcopyExit, hfront⟩

theorem Unrolled.of_dealt (hp : Pending p₀ (l :: todo) p) (hdown : Downgraded p₀ done p)
    (hdup : s.config.duplicateBody = true) (hall : done ++ l :: todo = loops)
    (hd : Dealt s name l p (.converted sm) q) : Unrolled p₀ loops l sm q := by
  cases hd with
  | @converted body _ _ _ _ _ _ _ hcond hconv =>
    obtain ⟨hbody, hbranch⟩ := hp.find?_of_hasCondition hcond
    obtain ⟨copy, pts, rfl, hcopyExit, hfront⟩ := hp.copiedInFront hdup hcond hconv
    exact ⟨rfl, rfl, ⟨_, loopCondition_eq_some (hasCondition_conditionAt hbody hbranch)⟩,
      done, todo, p, body, copy, pts, hall.symm, hp.extension, hdown, hbody, rfl, hcopyExit, hfront⟩

/-- Dealing with a later loop leaves the copies of a loop where they are. -/
theorem Unrolled.later (h : Unrolled p₀ loops l sm p) (hl : p₀.IsLoop l)
    (hp : Pending p₀ (m :: todo) p) (hlm : p₀.Later l m) (hd : Dealt s name m p v q) :
    Unrolled p₀ loops l sm q := by
  cases hd with
  | skipped => exact h
  | converted hcond hconv =>
    have hm := hp.isLoop m List.mem_cons_self
    have hne := hlm.ne_exit hl hm
    obtain ⟨before, after, r, body, copy, pts, hall, hext, hdown, hrange, hpts, hcopyExit,
      hfront⟩ := h.copies
    have hfront' := hfront.converted hp.extension hm hne.1 hne.2 hconv
    exact { h with copies := ⟨before, after, r, body, copy, pts, hall, hext, hdown, hrange, hpts,
      hcopyExit, hfront'⟩ }

end

/-- Where the loops of a function are pairwise apart, the assertions in their bodies are assumptions
in the end, and every loop that was converted still has its copies. -/
theorem convertFunction_unrolled {discovery : Discovery} {vs : List Verdict} (hclean : p.Clean)
    (hapart : (discovery name p).Pairwise p.Apart) (hdup : s.config.duplicateBody = true)
    (hasserts : s.config.convertAsserts = true)
    (hrun : (convertFunction s discovery name).run p = .ok vs q) :
    p.Extends q ∧ Downgraded p (p.turns (discovery name p)) q ∧ ∀ sm, .converted sm ∈ vs →
      ∃ l ∈ discovery name p, Unrolled p (p.turns (discovery name p)) l sm q := by
  obtain ⟨pairs, hfst, hsnd, hpending, hdown, hcopies⟩ := invariant_of_run_convertFunction
    (I := fun done q ↦ Downgraded p (done.map Prod.fst) q ∧ ∀ e ∈ done, ∀ sm,
      e.2 = .converted sm → Unrolled p (p.turns (discovery name p)) e.1 sm q) hclean hapart hrun
    ⟨downgraded_nil p, fun _ h ↦ absurd h List.not_mem_nil⟩
    (fun done m todo r w t hall hdone hpending hstep hd ⟨hdown, hcopies⟩ ↦ by
      refine ⟨?_, fun e he sm hsm ↦ ?_⟩
      · rw [List.map_append]
        exact hdown.dealt hpending hasserts hstep hd
      · rcases List.mem_append.1 he with he | he
        · obtain ⟨hl, hlm⟩ := hdone e.1 (List.mem_map_of_mem he)
          exact (hcopies e he sm hsm).later hl hpending hlm hd
        · cases List.mem_singleton.1 he
          cases hsm
          exact .of_dealt hpending hdown hdup hall hd)
  rw [hfst] at hdown
  refine ⟨hpending.extension, hdown, fun sm hsm ↦ ?_⟩
  obtain ⟨l, hl, hunrolled⟩ := exists_mem_of_mem_verdicts
    (K := fun l v ↦ ∀ sm, v = .converted sm → Unrolled p _ l sm q) hfst hsnd hcopies _ hsm
  exact ⟨l, hl, hunrolled sm rfl⟩

/-- In `q` the assertion `a` of `p` is an assumption, and `c` is a copy of it that has the given
kind. -/
structure AssertionCopied (p : Program) (a c : InstrId) (kind : Kind) (q : Program) : Prop where
  isAssume : (q.fetch a).isAssume = true
  alike : (p.fetch a).Alike (q.fetch a)
  notMem : c ∉ p.order
  origin : (q.fetch c).origin = .copy
  copy_alike : (p.fetch a).Alike (q.fetch c)
  kind_eq : (q.fetch c).kind = kind

/-- The assertions of a loop that was converted and their copies. -/
theorem Unrolled.assertionCopied {loops : List Loop} {sm : LoopSummary}
    (h : Unrolled p₀ (p₀.turns loops) l sm p) (hfrom : p₀.FromSource) (hnest : p₀.Nest loops)
    (hl : l ∈ loops) (hext : p₀.Extends p) (hdown : Downgraded p₀ (p₀.turns loops) p) :
    ∃ body copy pts, p₀.range l.head l.exit = .ok body ∧ sm.points = some pts ∧
      pts.copyExit = ((p₀.kept body).map copy).getLast? ∧
      (p₀.kept body).map copy ++ [l.exit] <:+: p.order ∧
      ∀ a ∈ body, (p₀.fetch a).isAssert = true → AssertionCopied p₀ a (copy a)
        (if ∃ m ∈ loops, p₀.Within l m then .assume else .assert) p := by
  obtain ⟨before, after, r, body, copy, pts, hall, hextr, hdownr, hbody, hpts, hcopyExit,
    hfront⟩ := h.copies
  refine ⟨body, copy, pts, hbody, hpts, hcopyExit, hfront.isInfix, fun a ha hassert ↦ ?_⟩
  have hmem : a ∈ p₀.order := ((mem_range_iff hbody).1 ha).1
  have hkind : (p₀.fetch a).kind = .assert := by simpa [Instruction.isAssert] using hassert
  have hsource : (p₀.fetch a).isSourceAssertion = true :=
    Instruction.isSourceAssertion_iff.2 ⟨hkind, hfrom.origin a hmem⟩
  have hcopied : a ∈ p₀.copied body := mem_copied.2 ⟨ha, hfrom.clean.isScaffold a hmem⟩
  have hkept : a ∈ p₀.kept body := mem_kept.2 ⟨hcopied, by simp [Instruction.isSkip, hkind]⟩
  obtain ⟨ts, hts⟩ := hfront.fetch a hkept
  have hretained := hextr.retained a hmem
  have hassume := (hdownr a hmem hsource).trans
    (assuming_iff_within hnest hall hbody ha h.hasCondition)
  refine ⟨(hdown a hmem hsource).2 ⟨l, (p₀.turns_perm loops).symm.subset hl,
    (inBody_iff_mem hbody hmem).2 ha, h.hasCondition⟩, (hext.retained a hmem).alike,
    hfront.notMem a hkept, ?_, ?_, ?_⟩
  · rw [hts]
    rfl
  · rw [hts]
    exact ⟨hretained.guard_eq, hretained.alike.code, hretained.location_eq,
      hretained.function_eq⟩
  · have hcopied : (p.fetch (copy a)).kind = (r.fetch a).kind := by
      rw [hts]
      rfl
    rw [hcopied]
    split
    · next hwithin => simpa [Instruction.isAssume] using hassume.2 hwithin
    · next hwithin =>
      have hnot := mt hassume.1 hwithin
      refine (hretained.kind.resolve_right fun hassumed ↦ hnot ?_).trans hkind
      rw [Instruction.isAssume, hassumed.2]
      rfl

/-! ### The run over all functions -/

theorem Renumbered.assertionCopied {c : InstrId} {kind : Kind} (h : Renumbered p q)
    (hc : AssertionCopied p₀ a c kind p) : AssertionCopied p₀ a c kind q where
  isAssume := by
    rw [Instruction.isAssume, h.kind_eq]
    exact hc.isAssume
  alike := hc.alike.trans (h.alike a)
  notMem := hc.notMem
  origin := (h.origin_eq c).trans hc.origin
  copy_alike := hc.copy_alike.trans (h.alike c)
  kind_eq := (h.kind_eq c).trans hc.kind_eq

/-- After a run that succeeds with bodies copied and assertions converted, over functions that
nothing was written into yet and with loops that are pairwise apart, the copies of the body of a
converted loop stand right in front of its exit. Its assertions are assumptions. The copy of an
assertion is an assertion again if the loop lies in the body of no other one, and an assumption if
it does. -/
theorem Functions.run_copiedAssertions {fs : Functions} {discovery : Discovery} {report : Report}
    (hdup : s.config.duplicateBody = true) (hasserts : s.config.convertAsserts = true)
    (hsource : ∀ name f, fs.get? name = some f → f.bodyAvailable = true → f.body.FromSource)
    (hapart : ∀ name f, fs.get? name = some f → f.bodyAvailable = true →
      (discovery name f.body).Pairwise f.body.Apart)
    (hrun : (fs.run s discovery).progress.outcome = .ok report) :
    ∀ sm ∈ report.converted, ∃ f g l body copy points,
      fs.get? sm.function = some f ∧
      (fs.run s discovery).functions.get? sm.function = some g ∧
      l ∈ discovery sm.function f.body ∧ sm.head = l.head ∧ sm.exit = l.exit ∧
      f.body.range l.head l.exit = .ok body ∧ sm.points = some points ∧
      points.copyExit = ((f.body.kept body).map copy).getLast? ∧
      (f.body.kept body).map copy ++ [l.exit] <:+: g.body.order ∧
      ∀ a ∈ body, (f.body.fetch a).isAssert = true → AssertionCopied f.body a (copy a)
        (if ∃ m ∈ discovery sm.function f.body, f.body.Within l m then .assume else .assert)
        g.body := by
  intro sm hsm
  obtain ⟨f, g, vs, q, hf, havailable, hg, hconvert, hverdict, hnumbered⟩ :=
    exists_of_mem_converted hrun hsm
  have hfrom := hsource _ f hf havailable
  have hnest : f.body.Nest (discovery sm.function f.body) :=
    ⟨fun l hl ↦ exists_range_iff_isLoop.1 (exists_range_of_run_convertFunction hconvert l hl),
      hapart _ f hf havailable⟩
  obtain ⟨hext, hdown, hunrolled⟩ := convertFunction_unrolled hfrom.clean hnest.apart hdup hasserts
    hconvert
  obtain ⟨l, hl, hunrolled⟩ := hunrolled sm hverdict
  obtain ⟨body, copy, pts, hbody, hpts, hcopyExit, hpiece, hcopied⟩ :=
    hunrolled.assertionCopied hfrom hnest hl hext hdown
  rw [← hnumbered.order] at hpiece
  exact ⟨f, g, l, body, copy, pts, hf, hg, hl, hunrolled.head_eq, hunrolled.exit_eq, hbody, hpts,
    hcopyExit, hpiece, fun a ha hassert ↦ hnumbered.assertionCopied (hcopied a ha hassert)⟩

/-- Both loops of `nestedLoops` have its assertion in their bodies. Its copy is an assertion for the
outer loop only. -/
theorem Functions.run_copiedAssertions_nestedLoops :
    let r := (single "main" nestedLoops).run { config := .full } fun _ _ ↦ nestedLoops.loops
    ∃ report g, r.progress.outcome = .ok report ∧ r.functions.get? "main" = some g ∧
      report.converted.map LoopSummary.head = [⟨0⟩, ⟨1⟩] ∧
      ∀ sm ∈ report.converted, ∃ c, AssertionCopied nestedLoops ⟨2⟩ c
        (if sm.head = ⟨0⟩ then .assert else .assume) g.body := by
  intro r
  have hheads : r.progress.outcome.toOption.map (·.converted.map LoopSummary.head) =
      some [⟨0⟩, ⟨1⟩] := by decide +kernel
  cases hrun : r.progress.outcome with
  | error fault =>
    rw [hrun] at hheads
    cases hheads
  | ok report =>
    rw [hrun] at hheads
    have hf : (single "main" nestedLoops).get? "main" = some (.ofBody nestedLoops) := rfl
    obtain ⟨g, hg, -, -⟩ := get?_run hrun hf
    refine ⟨report, g, rfl, hg, Option.some.inj hheads, fun sm hsm ↦ ?_⟩
    obtain ⟨f, g', l, body, copy, pts, hf, hg', hl, hhead, hexit, hbody, -, -, -, hcopied⟩ :=
      run_copiedAssertions rfl rfl (fun name f hf _ ↦ by rw [(eq_of_get?_single hf).2]; decide)
        (fun name f hf _ ↦ by rw [(eq_of_get?_single hf).2]; decide) hrun sm hsm
    obtain ⟨hname, rfl⟩ := eq_of_get?_single hf
    rw [hname] at hg'
    cases hg.symm.trans hg'
    refine ⟨copy ⟨2⟩, ?_⟩
    rcases List.mem_pair.1 hl with rfl | rfl
    · cases (show nestedLoops.range ⟨1⟩ ⟨3⟩ = .ok [⟨1⟩, ⟨2⟩] by decide).symm.trans hbody
      have hinner := hcopied ⟨2⟩ (by decide) (by decide)
      rw [if_pos (by decide)] at hinner
      rw [hhead, if_neg (by decide)]
      exact hinner
    · cases (show nestedLoops.range ⟨0⟩ ⟨5⟩ = .ok [⟨0⟩, ⟨1⟩, ⟨2⟩, ⟨3⟩, ⟨4⟩] by decide).symm.trans
        hbody
      have houter := hcopied ⟨2⟩ (by decide) (by decide)
      rw [if_neg (by decide)] at houter
      rw [hhead, if_pos rfl]
      exact houter

/-- A loop with another one inside, in which the only assertion is. Each runs while a condition
holds and is left to what stands behind it. -/
def whileInWhile : Program :=
  .ofList [.goto ⟨6⟩ (.not (.var ⟨"again", .bool⟩)), .goto ⟨4⟩ (.not (.var ⟨"more", .bool⟩)),
    .assert (.var ⟨"safe", .bool⟩), .goto ⟨1⟩ (.bool true), .skip, .goto ⟨0⟩ (.bool true),
    .endFunction]

/-- The loops of `whileInWhile`, the inner one first. -/
def whileInWhile.loops : List Loop :=
  [⟨⟨1⟩, ⟨3⟩, []⟩, ⟨⟨0⟩, ⟨5⟩, []⟩]

/-- The copy of the body of the inner loop consists of #17 and #18, right in front of its exit. The
copy of its assertion is an assumption, so that nothing is checked in it. -/
theorem Functions.run_copiedAssertions_whileInWhile :
    let r := (single "main" whileInWhile).run { config := .full } fun _ _ ↦ whileInWhile.loops
    whileInWhile.FromSource ∧ whileInWhile.Nest whileInWhile.loops ∧
    ∃ report g sm points, r.progress.outcome = .ok report ∧ r.functions.get? "main" = some g ∧
      sm ∈ report.converted ∧ sm.function = "main" ∧ sm.head = ⟨1⟩ ∧ sm.exit = ⟨3⟩ ∧
      whileInWhile.range ⟨1⟩ ⟨3⟩ = .ok [⟨1⟩, ⟨2⟩] ∧ (whileInWhile.fetch ⟨2⟩).isAssert = true ∧
      sm.points = some points ∧ points.copyExit = some ⟨18⟩ ∧
      [⟨17⟩, ⟨18⟩, ⟨3⟩] <:+: g.body.order ∧ (g.body.fetch ⟨17⟩).origin = .copy ∧
      (g.body.fetch ⟨18⟩).origin = .copy ∧ (whileInWhile.fetch ⟨2⟩).Alike (g.body.fetch ⟨18⟩) ∧
      (g.body.fetch ⟨18⟩).isAssert = false ∧ (g.body.fetch ⟨18⟩).isAssume = true := by
  intro r
  have hinner : (r.progress.outcome.toOption.any fun report ↦
      (r.functions.get? "main").any fun g ↦ decide (∃ sm ∈ report.converted,
        sm.function = "main" ∧ sm.head = ⟨1⟩ ∧ sm.exit = ⟨3⟩ ∧
        sm.points.map (·.copyExit) = some (some ⟨18⟩) ∧
        [⟨17⟩, ⟨18⟩, ⟨3⟩] <:+: g.body.order ∧ (g.body.fetch ⟨17⟩).origin = .copy ∧
        (g.body.fetch ⟨18⟩).origin = .copy ∧
        (whileInWhile.fetch ⟨2⟩).Alike (g.body.fetch ⟨18⟩) ∧
        (g.body.fetch ⟨18⟩).isAssert = false ∧ (g.body.fetch ⟨18⟩).isAssume = true)) = true := by
    decide +kernel
  obtain ⟨report, hreport, hinner⟩ := (Option.any_eq_true _ _).1 hinner
  obtain ⟨g, hg, hinner⟩ := (Option.any_eq_true _ _).1 hinner
  obtain ⟨sm, hsm, hfunction, hhead, hexit, hpoints, h⟩ := of_decide_eq_true hinner
  obtain ⟨points, hpoints, hcopyExit⟩ := Option.map_eq_some_iff.1 hpoints
  exact ⟨by decide, by decide, report, g, sm, points, eq_ok_of_toOption hreport, hg, hsm,
    hfunction, hhead, hexit, by decide, by decide, hpoints, hcopyExit, h⟩

end LoopInduction
