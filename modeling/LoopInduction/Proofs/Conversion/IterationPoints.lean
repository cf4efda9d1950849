import LoopInduction.Proofs.Conversion.CopiedAssertions

/-!
# The points of an iteration

When a loop is unwound the report takes down two points of it: the marker behind its exit, and the
last copy in front of it. Loops that are converted later write next to these points, and each of
them takes skips out of the program again. The points stay what they are all the same
(`Functions.run_iterationPoints`): what a later loop writes stands in front of its head, or at its
exit, and neither of them is the exit of the loop or lies between the exit and the points.

## Main definitions

* `MarkedBehind` : a marker stands behind an exit.
* `Pointed` : what a run keeps of the points of a converted loop.
* `IterationPoints.Hold` : what the points of a loop say of a program.

## Main results

* `Functions.run_iterationPoints` : the points of the report hold after a run.
-/

namespace LoopInduction

open Program

variable {p₀ p q p₁ p₂ p₃ : Program} {s : Setup} {l m : Loop} {condition : LoopCondition}
  {body between : List InstrId} {exit marker : InstrId} {points : Option IterationPoints}
  {pts : IterationPoints} {assumption : Option InstrId} {name : String}

/-! ### The marker -/

/-- Behind an exit stands a marker, and between the two nothing but scaffolding that was not in
`p₀`. -/
structure MarkedBehind (p₀ : Program) (exit : InstrId) (between : List InstrId) (marker : InstrId)
    (p : Program) : Prop where
  isInfix : exit :: (between ++ [marker]) <:+: p.order
  notMem : ∀ a ∈ between ++ [marker], a ∉ p₀.order
  isScaffold : ∀ a ∈ between ++ [marker], (p.fetch a).isScaffold = true
  isSkip : (p.fetch marker).isSkip = true

namespace MarkedBehind

/-- A marker stays a marker. -/
theorem of_extends (h : MarkedBehind p₀ exit between marker p) (hext : p.Extends q)
    (hpiece : exit :: (between ++ [marker]) <:+: q.order) :
    MarkedBehind p₀ exit between marker q where
  isInfix := hpiece
  notMem := h.notMem
  isScaffold a ha := by
    rw [(hext.retained a (h.isInfix.subset (List.mem_cons_of_mem _ ha))).isScaffold_eq]
    exact h.isScaffold a ha
  isSkip := by
    rw [(hext.retained marker (h.isInfix.subset (by simp))).isSkip_eq]
    exact h.isSkip

/-- Converting another loop leaves the marker where it is. -/
theorem converted (h : MarkedBehind p₀ l.exit between marker p) (hext : p₀.Extends p)
    (hm : p₀.IsLoop m) (hexit : m.exit ≠ l.exit)
    (hconv : Converted s m body condition points assumption p p₁ p₂ p₃ q) :
    MarkedBehind p₀ l.exit between marker q := by
  obtain ⟨-, -, hpiece⟩ := hconv.isInfix (hext.mem hm.exit_mem) h.isInfix
    (fun hmem ↦ h.notMem _ hmem hm.head_mem)
    fun hmem ↦ (List.mem_cons.1 hmem).elim hexit fun hmem ↦ h.notMem _ hmem hm.exit_mem
  exact h.of_extends hconv.extension hpiece

end MarkedBehind

/-- Unwinding a loop puts a marker behind its exit. -/
theorem Unwound.markedBehind {behind : InstrId} {builder : GuardBuilder}
    {copy : InstrId → InstrId} {guard : Option InstrId}
    (h : Unwound p q body exit behind builder copy guard marker) (hext : p₀.Extends p) :
    MarkedBehind p₀ exit guard.toList marker q where
  isInfix := (List.prefix_append _ _).isInfix.trans h.isInfix_tail
  notMem a ha hp₀ := by
    obtain ⟨r, hpr, -⟩ := h.splice
    exact hpr.notMem_of_mem_new ha (hext.mem hp₀)
  isScaffold a ha := by
    rcases List.mem_append.1 ha with hguard | hmarker
    · rw [fetch_eq (h.get?_guard a (Option.mem_toList.1 hguard))]
      rfl
    · rw [List.mem_singleton.1 hmarker, fetch_eq h.get?_marker]
      rfl
  isSkip := by
    rw [fetch_eq h.get?_marker]
    rfl

/-- An assumption that is written right behind the exit is scaffolding too. -/
theorem Forwarded.markedBehind {target : InstrId} (h : Forwarded s l condition target p q)
    (hmarked : MarkedBehind p₀ l.exit between marker p) (hext : p₀.Extends p) :
    MarkedBehind p₀ l.exit (p.fresh :: between) marker q := by
  have hmem : ∀ a ∈ between ++ [marker], a ∈ p.order := fun a ha ↦
    hmarked.isInfix.subset (List.mem_cons_of_mem _ ha)
  refine ⟨h.splice.isInfix_insert hmarked.isInfix, fun a ha ↦ ?_, fun a ha ↦ ?_, ?_⟩
  · rcases List.mem_cons.1 ha with rfl | ha
    · exact fun hp₀ ↦ p.fresh_notMem_order (hext.mem hp₀)
    · exact hmarked.notMem a ha
  · rcases List.mem_cons.1 ha with rfl | ha
    · rw [fetch_eq h.get?_new]
      rfl
    · rw [(h.extension.retained a (hmem a ha)).isScaffold_eq]
      exact hmarked.isScaffold a ha
  · rw [(h.extension.retained marker (hmem marker (by simp))).isSkip_eq]
    exact hmarked.isSkip

/-- Converting a loop puts a marker behind its exit. -/
theorem Converted.markedBehind
    (h : Converted s l body condition (some pts) assumption p p₁ p₂ p₃ q) (hext : p₀.Extends p) :
    ∃ between, MarkedBehind p₀ l.exit between pts.firstExit q := by
  obtain ⟨-, behind, copy, guard, hunwound, -⟩ := h.unwound
  have hext₁ := hext.trans h.scaffolded.extension
  have hmarked₂ := hunwound.markedBehind hext₁
  obtain ⟨between, hmarked₃⟩ : ∃ between, MarkedBehind p₀ l.exit between pts.firstExit p₃ := by
    obtain heq | ⟨target, -, -, hforwarded⟩ := h.forwarded.eq_or_exists
    · exact ⟨_, heq ▸ hmarked₂⟩
    · exact ⟨_, hforwarded.markedBehind hmarked₂ (hext₁.trans hunwound.extension)⟩
  refine ⟨between, hmarked₃.of_extends h.assumed.extension ?_⟩
  rw [h.assumed.order_eq]
  exact hmarked₃.isInfix

/-! ### The run over a function -/

/-- What a run keeps of the points of a converted loop. -/
structure Pointed (p₀ : Program) (l : Loop) (sm : LoopSummary) (p : Program) : Prop where
  head_eq : sm.head = l.head
  exit_eq : sm.exit = l.exit
  points : ∃ r body copy between pts, p₀.Extends r ∧ p₀.range l.head l.exit = .ok body ∧
    p₀.kept body ≠ [] ∧ sm.points = some pts ∧
    pts.copyExit = ((p₀.kept body).map copy).getLast? ∧
    CopiedInFront p₀ r (p₀.kept body) copy l.exit p ∧
    MarkedBehind p₀ l.exit between pts.firstExit p

section

variable {todo : List Loop} {v : Verdict} {sm : LoopSummary}

/-- The jump that a loop takes its condition from has a copy that stays. -/
theorem Program.Clean.branch_mem_kept (hclean : p.Clean) {branch : InstrId}
    (hbody : p.range l.head l.exit = .ok body)
    (hbranch : body.find? (fun id ↦ (p.fetch id).isConditionalJump) = some branch) :
    branch ∈ p.kept body := by
  have hmem := List.mem_of_find?_eq_some hbranch
  have hjump := List.find?_some hbranch
  exact mem_kept.2 ⟨mem_copied.2 ⟨hmem, hclean.isScaffold _ ((mem_range_iff hbody).1 hmem).1⟩,
    Instruction.isSkip_of_isConditionalJump hjump⟩

theorem Pointed.of_dealt (hclean : p₀.Clean) (hp : Pending p₀ (l :: todo) p)
    (hdup : s.config.duplicateBody = true) (hd : Dealt s name l p (.converted sm) q) :
    Pointed p₀ l sm q := by
  cases hd with
  | @converted body _ _ _ _ _ _ _ hcond hconv =>
    obtain ⟨hbody, hbranch⟩ := hp.find?_of_hasCondition hcond
    obtain ⟨copy, pts, rfl, hcopyExit, hfront⟩ := hp.copiedInFront hdup hcond hconv
    obtain ⟨between, hmarked⟩ := hconv.markedBehind hp.extension
    exact ⟨rfl, rfl, p, body, copy, between, pts, hp.extension, hbody,
      List.ne_nil_of_mem (hclean.branch_mem_kept hbody hbranch), rfl, hcopyExit, hfront, hmarked⟩

/-- Dealing with a later loop leaves the points of a loop where they are. -/
theorem Pointed.later (h : Pointed p₀ l sm p) (hl : p₀.IsLoop l) (hp : Pending p₀ (m :: todo) p)
    (hlm : p₀.Later l m) (hd : Dealt s name m p v q) : Pointed p₀ l sm q := by
  cases hd with
  | skipped => exact h
  | converted hcond hconv =>
    have hm := hp.isLoop m List.mem_cons_self
    obtain ⟨hhead, hexit⟩ := hlm.ne_exit hl hm
    obtain ⟨r, body, copy, between, pts, hext, hbody, hkept, hpts, hcopyExit, hfront, hmarked⟩ :=
      h.points
    exact ⟨h.head_eq, h.exit_eq, r, body, copy, between, pts, hext, hbody, hkept, hpts, hcopyExit,
      hfront.converted hp.extension hm hhead hexit hconv,
      hmarked.converted hp.extension hm hexit hconv⟩

end

/-- Where the loops of a function are pairwise apart, every loop that was converted has its points
in the end. -/
theorem convertFunction_pointed {discovery : Discovery} {vs : List Verdict} (hclean : p.Clean)
    (hapart : (discovery name p).Pairwise p.Apart) (hdup : s.config.duplicateBody = true)
    (hrun : (convertFunction s discovery name).run p = .ok vs q) :
    p.Extends q ∧ ∀ sm, .converted sm ∈ vs → ∃ l ∈ discovery name p, Pointed p l sm q := by
  obtain ⟨pairs, hfst, hsnd, hpending, hpointed⟩ := invariant_of_run_convertFunction
    (I := fun done q ↦ ∀ e ∈ done, ∀ sm, e.2 = .converted sm → Pointed p e.1 sm q) hclean hapart
    hrun (fun _ h ↦ absurd h List.not_mem_nil)
    (fun done m todo r w t hall hdone hpending hstep hd hpointed e he sm hsm ↦ by
      rcases List.mem_append.1 he with he | he
      · obtain ⟨hl, hlm⟩ := hdone e.1 (List.mem_map_of_mem he)
        exact (hpointed e he sm hsm).later hl hpending hlm hd
      · cases List.mem_singleton.1 he
        cases hsm
        exact .of_dealt hclean hpending hdup hd)
  refine ⟨hpending.extension, fun sm hsm ↦ ?_⟩
  obtain ⟨l, hl, hpointed⟩ := exists_mem_of_mem_verdicts
    (K := fun l v ↦ ∀ sm, v = .converted sm → Pointed p l sm q) hfst hsnd hpointed _ hsm
  exact ⟨l, hl, hpointed sm rfl⟩

/-! ### What the points say -/

/-- The points say in `p` where the first iteration of the loop `l` of `p₀` ends. -/
structure IterationPoints.Hold (points : IterationPoints) (p₀ : Program) (l : Loop)
    (p : Program) : Prop where
  /-- The one behind the jump back is a skip, with nothing but scaffolding up to it. -/
  marker : ∃ between, l.exit :: (between ++ [points.firstExit]) <:+: p.order ∧
    (∀ a ∈ between ++ [points.firstExit], (p.fetch a).isScaffold = true) ∧
    (p.fetch points.firstExit).isSkip = true
  /-- The other one is a copy that stands right in front of the jump back. -/
  copyExit : ∃ c, points.copyExit = some c ∧ (p.fetch c).origin = .copy ∧ p.prev? l.exit = some c
  /-- The copies of the body, of which it is the last one, stand behind the whole body. -/
  copies : ∃ body copy, p₀.range l.head l.exit = .ok body ∧
    points.copyExit = ((p₀.kept body).map copy).getLast? ∧
    (p₀.kept body).map copy ++ [l.exit] <:+: p.order ∧
    (∀ v ∈ p₀.kept body, copy v ∉ p₀.order ∧ (p.fetch (copy v)).origin = .copy ∧
      (p₀.fetch v).Alike (p.fetch (copy v))) ∧
    ∀ u ∈ body, ∀ v ∈ p₀.kept body, p.position l.head ≤ p.position u ∧
      p.position u < p.position (copy v) ∧ p.position (copy v) < p.position l.exit

/-- The points of a converted loop hold. -/
theorem Pointed.exists_hold {sm : LoopSummary} (h : Pointed p₀ l sm p) (hext : p₀.Extends p) :
    ∃ points, sm.points = some points ∧ points.Hold p₀ l p := by
  obtain ⟨r, body, copy, between, pts, hextr, hbody, hne, hpts, hcopyExit, hfront, hmarked⟩ :=
    h.points
  obtain ⟨hhead, hexit, -⟩ := range_eq_ok hbody
  have hcopy : ∀ v ∈ p₀.kept body, copy v ∉ p₀.order ∧ (p.fetch (copy v)).origin = .copy ∧
      (p₀.fetch v).Alike (p.fetch (copy v)) := by
    intro v hv
    obtain ⟨ts, hts⟩ := hfront.fetch v hv
    have hmem : v ∈ p₀.order := ((mem_range_iff hbody).1 (mem_copied.1 (mem_kept.1 hv).1).1).1
    have hretained := hextr.retained v hmem
    rw [hts]
    exact ⟨hfront.notMem v hv, rfl, hretained.guard_eq, hretained.alike.code,
      hretained.location_eq, hretained.function_eq⟩
  refine ⟨pts, hpts, ⟨between, hmarked.isInfix, hmarked.isScaffold, hmarked.isSkip⟩, ?_, body, copy,
    hbody, hcopyExit, hfront.isInfix, hcopy, fun u hu v hv ↦ ?_⟩
  · obtain ⟨init, v, hlast⟩ := (List.eq_nil_or_concat _).resolve_left hne
    have hpiece : init.map copy ++ [copy v, l.exit] <:+: p.order := by
      simpa [hlast] using hfront.isInfix
    have hnext := next?_of_isInfix ((List.suffix_append _ _).isInfix.trans hpiece)
    exact ⟨copy v, by simp [hcopyExit, hlast], (hcopy v (by simp [hlast])).2.1,
      prev?_eq_some_iff.2 hnext⟩
  · obtain ⟨hup, hhu, hue⟩ := (mem_range_iff hbody).1 hu
    have hcv : copy v ∈ (p₀.kept body).map copy ++ [l.exit] :=
      List.mem_append_left _ (List.mem_map_of_mem hv)
    have hnot : u ∉ (p₀.kept body).map copy ++ [l.exit] := fun hmem ↦
      notMem_of_range hbody (hfront.eq_exit hmem hup ▸ hu)
    have hrange := range_of_isInfix hfront.isInfix (List.head?_eq_some_head (by simp))
    exact ⟨(hext.position_le_iff hhead hup).2 hhu,
      position_lt_of_isInfix hfront.isInfix (hext.mem hup) hnot hcv (by simp)
        ((hext.position_lt_iff hup hexit).2 hue),
      ((mem_range_iff hrange).1 (List.mem_map_of_mem hv)).2.2⟩

/-- Numbers are nothing that the points speak of. -/
theorem Renumbered.hold (h : Renumbered p q) (hold : pts.Hold p₀ l p) : pts.Hold p₀ l q where
  marker := by
    obtain ⟨between, hpiece, hscaffold, hskip⟩ := hold.marker
    refine ⟨between, by rwa [h.order], fun a ha ↦ ?_, ?_⟩
    · rw [Instruction.isScaffold, h.origin_eq]
      exact hscaffold a ha
    · rw [Instruction.isSkip, h.kind_eq]
      exact hskip
  copyExit := by
    obtain ⟨c, hc, horigin, hprev⟩ := hold.copyExit
    refine ⟨c, hc, (h.origin_eq c).trans horigin, ?_⟩
    rw [prev?_eq_some_iff, h.next?_eq]
    exact prev?_eq_some_iff.1 hprev
  copies := by
    have hposition : ∀ a, q.position a = p.position a := fun a ↦ by
      rw [position, h.order, position]
    obtain ⟨body, copy, hbody, hcopyExit, hpiece, hcopy, hbehind⟩ := hold.copies
    refine ⟨body, copy, hbody, hcopyExit, by rwa [h.order], fun v hv ↦ ?_, ?_⟩
    · obtain ⟨hnew, horigin, halike⟩ := hcopy v hv
      exact ⟨hnew, (h.origin_eq _).trans horigin, halike.trans (h.alike _)⟩
    · simpa only [hposition] using hbehind

/-- After a run that succeeds with bodies copied, over functions without scaffolding, with live
targets, and with loops that are pairwise apart, the points that the report gives for a converted
loop still say where its first iteration ends. -/
theorem Functions.run_iterationPoints {fs : Functions} {discovery : Discovery} {report : Report}
    (hdup : s.config.duplicateBody = true)
    (hclean : ∀ name f, fs.get? name = some f → f.bodyAvailable = true → f.body.Clean)
    (hapart : ∀ name f, fs.get? name = some f → f.bodyAvailable = true →
      (discovery name f.body).Pairwise f.body.Apart)
    (hrun : (fs.run s discovery).progress.outcome = .ok report) :
    ∀ sm ∈ report.converted, ∃ f g l points,
      fs.get? sm.function = some f ∧
      (fs.run s discovery).functions.get? sm.function = some g ∧
      l ∈ discovery sm.function f.body ∧ sm.head = l.head ∧ sm.exit = l.exit ∧
      sm.points = some points ∧ points.Hold f.body l g.body := by
  intro sm hsm
  obtain ⟨f, g, vs, q, hf, havailable, hg, hconvert, hverdict, hnumbered⟩ :=
    exists_of_mem_converted hrun hsm
  obtain ⟨hext, hpointed⟩ := convertFunction_pointed (hclean _ f hf havailable)
    (hapart _ f hf havailable) hdup hconvert
  obtain ⟨l, hl, hpointed⟩ := hpointed sm hverdict
  obtain ⟨points, hpoints, hold⟩ := hpointed.exists_hold hext
  exact ⟨f, g, l, points, hf, hg, hl, hpointed.head_eq, hpointed.exit_eq, hpoints,
    hnumbered.hold hold⟩

/-- A loop that ends with another one, and a third one right behind it. -/
def adjacentLoops : Program :=
  .ofList [.goto ⟨5⟩ (.var ⟨"done", .bool⟩), .goto ⟨4⟩ (.var ⟨"found", .bool⟩),
    .assert (.var ⟨"safe", .bool⟩), .goto ⟨1⟩ (.bool true), .goto ⟨0⟩ (.bool true),
    .goto ⟨7⟩ (.var ⟨"over", .bool⟩), .goto ⟨5⟩ (.bool true), .endFunction]

/-- The loops of `adjacentLoops`, the longest one last. -/
def adjacentLoops.loops : List Loop :=
  [⟨⟨1⟩, ⟨3⟩, []⟩, ⟨⟨5⟩, ⟨6⟩, [⟨"over", .bool⟩]⟩, ⟨⟨0⟩, ⟨4⟩, [⟨"found", .bool⟩]⟩]

/-- The copy of the outer loop and the marker of the inner one meet behind the inner exit, and the
block of the third loop stands right behind the marker of the outer one. -/
theorem Functions.run_iterationPoints_adjacentLoops :
    let r := (single "main" adjacentLoops).run { config := .full } fun _ _ ↦ adjacentLoops.loops
    ∃ report g, r.progress.outcome = .ok report ∧ r.functions.get? "main" = some g ∧
      report.converted.map LoopSummary.head = [⟨0⟩, ⟨1⟩, ⟨5⟩] ∧
      ∀ sm ∈ report.converted, ∃ l ∈ adjacentLoops.loops, sm.head = l.head ∧ sm.exit = l.exit ∧
        ∃ points, sm.points = some points ∧ points.Hold adjacentLoops l g.body := by
  intro r
  have hheads : r.progress.outcome.toOption.map (·.converted.map LoopSummary.head) =
      some [⟨0⟩, ⟨1⟩, ⟨5⟩] := by decide +kernel
  cases hrun : r.progress.outcome with
  | error fault =>
    rw [hrun] at hheads
    cases hheads
  | ok report =>
    rw [hrun] at hheads
    have hf : (single "main" adjacentLoops).get? "main" = some (.ofBody adjacentLoops) := rfl
    obtain ⟨g, hg, -, -⟩ := get?_run hrun hf
    refine ⟨report, g, rfl, hg, Option.some.inj hheads, fun sm hsm ↦ ?_⟩
    obtain ⟨f, g', l, points, hf, hg', hl, hhead, hexit, hpoints, hold⟩ :=
      run_iterationPoints rfl (fun name f hf _ ↦ by rw [(eq_of_get?_single hf).2]; decide)
        (fun name f hf _ ↦ by rw [(eq_of_get?_single hf).2]; decide) hrun sm hsm
    obtain ⟨hname, rfl⟩ := eq_of_get?_single hf
    rw [hname] at hg'
    cases hg.symm.trans hg'
    exact ⟨l, hl, hhead, hexit, points, hpoints, hold⟩

end LoopInduction
