import LoopInduction.Proofs.Conversion.Rewritten
import Mathlib.Data.List.Perm.Basic

/-!
# The order of discovery

Of loops of equal length the one discovered first is dealt with first. Which one that is makes no
difference but for the ids that are given out and the order of the report, if loops are disjoint or
lie strictly inside each other (`Functions.run_of_perm_discovery`). Both runs rewrite the listing of
the input at the same sites, outer sites first, so with names that do not depend on the order the
two rewritings are the same; the renaming goes from the ids of the one run back to these names and
on to the ids of the other.

## Main definitions

* `LoopSummary.rename` : what is reported of a loop, with other ids.
* `Matching` : two conversions of a function come to the same, up to ids.
* `Function.Reordered` : two discoveries give the same loops of a function.

## Main results

* `Rewritten.exists_matching` : rewritings of the same loops match.
* `Functions.run_of_perm_discovery` : runs with the same loops match.
-/

namespace LoopInduction

open Program

/-! ### Reports with other ids -/

/-- The points with other ids. -/
def IterationPoints.rename (π : InstrId → InstrId) (points : IterationPoints) :
    IterationPoints where
  firstExit := π points.firstExit
  copyExit := points.copyExit.map π

/-- What is reported of a loop, with other ids. -/
def LoopSummary.rename (π : InstrId → InstrId) (sm : LoopSummary) : LoopSummary where
  function := sm.function
  head := π sm.head
  exit := π sm.exit
  branch := sm.branch.map π
  points := sm.points.map (.rename π)
  assumption := sm.assumption.map π

theorem Site.rename_summary {p : Program} {s : Setup} {f : Site p} {n n' : Part → InstrId}
    {π : InstrId → InstrId} (name : String) (hfixed : ∀ id ∈ p.order, π id = id)
    (hnames : ∀ a ∈ f.parts s, π (n a) = n' a) :
    (f.summary s n name).rename π = f.summary s n' name := by
  have hids : ∀ u ∈ f.ids, π u = u := fun u hu ↦ hfixed u (mem_order_of_mem_ids hu)
  have hpoints : (f.points s n).map (IterationPoints.rename π) = f.points s n' := by
    rw [points, points]
    split
    · next hdup =>
      have hmarker : π (n .marker) = n' .marker :=
        hnames _ (by simp [parts, tailParts, markerParts, hdup])
      have hcopies : (p.kept f.body).map (π ∘ n ∘ Part.copy) =
          (p.kept f.body).map (n' ∘ Part.copy) :=
        List.map_congr_left fun u hu ↦ hnames _ (by simp [parts, hdup, hu])
      rw [Option.map_some, IterationPoints.rename, hmarker, ← List.getLast?_map, List.map_map,
        hcopies]
    · rfl
  have hassumption : (if s.config.assumesAfter then some (n .after) else none).map π =
      if s.config.assumesAfter then some (n' .after) else none := by
    split
    · next hafter =>
      rw [Option.map_some, hnames _ (by simp [parts, tailParts, hafter])]
    · rfl
  rw [summary, summary, LoopSummary.rename]
  simp only [hids _ (mem_ids_of_mem f.head_mem), hids _ f.exit_mem_ids, hpoints, hassumption,
    Option.map_some, hids _ (mem_ids_of_mem f.branch_mem)]

/-! ### One function -/

/-- Two conversions of `p` leave the same and report the same, up to ids that are not in `p` and the
order of the reports, also once the instructions have got numbers. -/
structure Matching (name : String) (p : Program) (π : InstrId → InstrId) (vs : List Verdict)
    (q : Program) (vs' : List Verdict) (q' : Program) : Prop where
  fixed : ∀ id ∈ p.order, π id = id
  function : ∀ sm ∈ vs.filterMap Verdict.converted? ++ vs.filterMap Verdict.skipped?,
    sm.function = name
  renames : Renames π q q'
  numbered : ∀ location, Renames π (q.numbered location) (q'.numbered location)
  converted : ((vs.filterMap Verdict.converted?).map (LoopSummary.rename π)).Perm
    (vs'.filterMap Verdict.converted?)
  skipped : ((vs.filterMap Verdict.skipped?).map (LoopSummary.rename π)).Perm
    (vs'.filterMap Verdict.skipped?)

section

variable {s : Setup} {name : String} {p q q' : Program} {names names' : InstrId → Part → InstrId}
  {loops loops' : List Loop} {vs vs' : List Verdict} {sites sites' : List (Site p)}

/-- Two programs that come from one listing by other ids rename each other, if the ids of the first
one tell apart those of the listing. -/
theorem exists_renames_of_rename {l : Listing} {μ μ' : InstrId → InstrId}
    (hlive : ∀ e ∈ l, ∀ t ∈ e.2.targets, t ∈ l.ids) (hinj : Set.InjOn μ {id | id ∈ l.ids})
    (hq : q.entries = l.rename μ) (hq' : q'.entries = l.rename μ') :
    ∃ π, (∀ id ∈ l.ids, π (μ id) = μ' id) ∧ Renames π q q' := by
  -- back to the ids of the listing, and on to the other ones
  let π := μ' ∘ Function.invFunOn μ {id | id ∈ l.ids}
  have hπ : ∀ id ∈ l.ids, π (μ id) = μ' id := fun id hid ↦
    congrArg μ' (hinj.leftInvOn_invFunOn hid)
  refine ⟨π, hπ, ?_⟩
  rw [Renames, hq, hq', Listing.rename_rename]
  exact Listing.rename_congr (fun id hid ↦ (hπ id hid).symm) hlive

theorem Rewritten.exists_matching (h : Rewritten s name p names loops vs sites q)
    (h' : Rewritten s name p names' loops' vs' sites' q') (hsound : p.Sound)
    (hloops : ∀ l ∈ loops, p.IsLoop l) (hperm : loops.Perm loops')
    (hlater : loops.Pairwise p.Later) (hlater' : loops'.Pairwise p.Later) :
    ∃ π, Matching name p π vs q vs' q' := by
  have hsites : sites.Perm sites' := by
    have hmap := hperm.filter p.isConditional
    rw [← h.map_toLoop, ← h'.map_toLoop] at hmap
    exact (List.map_perm_map_iff Site.toLoop_injective).1 hmap
  have hpairwise := List.pairwise_map.1 (h.map_toLoop ▸ hlater.filter p.isConditional)
  have hpairwise' := List.pairwise_map.1 (h'.map_toLoop ▸ hlater'.filter p.isConditional)
  obtain ⟨μ, hμ, hnames, hinj, hq⟩ := h.exists_rename hsound
  obtain ⟨μ', hμ', hnames', -, hq'⟩ := h'.exists_rename hsound
  rw [← Site.convertedAll_eq_of_perm s hsound hsites hpairwise hpairwise'] at hq'
  have hopen := Site.open_entries hsound (Site.freshNames_notMem p) sites
  obtain ⟨π, hπ, hrenames⟩ := exists_renames_of_rename
    (Site.live_convertedAll hopen.subset hopen.live) hinj hq hq'
  have hfixed : ∀ id ∈ p.order, π id = id := fun id hid ↦ by
    have hid' := hπ id (Site.mem_ids_convertedAll_of_mem (hopen.subset hid))
    rwa [hμ id hid, hμ' id hid] at hid'
  refine ⟨π, hfixed, ?_, hrenames, hrenames.numbered h.sound.targetsLive, ?_, ?_⟩
  · rw [h.converted, h.skipped]
    simp only [List.mem_append, List.mem_map]
    rintro sm (⟨f, -, rfl⟩ | ⟨l, -, rfl⟩) <;> rfl
  · have hsummaries : sites.map (LoopSummary.rename π ∘ fun f ↦ f.summary s (names f.exit) name) =
        sites.map fun f ↦ f.summary s (names' f.exit) name := by
      refine List.map_congr_left fun f hf ↦ Site.rename_summary name hfixed fun a ha ↦ ?_
      rw [hnames, hnames']
      exact hπ _ (Site.name_mem_ids_convertedAll hopen.subset hf ha)
    rw [h.converted, h'.converted, List.map_map, hsummaries]
    exact hsites.map _
  · rw [h.skipped, h'.skipped, List.map_map]
    refine (List.Perm.of_eq (List.map_congr_left fun l hl ↦ ?_)).trans ((hperm.filter _).map _)
    have hl := hloops l (List.mem_of_mem_filter hl)
    rw [Function.comp_apply, LoopSummary.rename, hfixed _ hl.head_mem, hfixed _ hl.exit_mem]
    rfl

end

theorem Program.Nest.perm {p : Program} {loops loops' : List Loop} (h : p.Nest loops)
    (hperm : loops.Perm loops') : p.Nest loops' where
  isLoop l hl := h.isLoop l (hperm.symm.subset hl)
  apart := (hperm.pairwise_iff Apart.symm).1 h.apart

/-- The two discoveries give the same loops of the function, and those that are there are pairwise
apart. The function has no scaffolding, and its targets are there and listed once. -/
structure Function.Reordered (d d' : Discovery) (name : String) (f : Function) : Prop where
  isScaffold : ∀ id ∈ f.body.order, (f.body.fetch id).isScaffold = false
  sound : f.body.Sound
  perm : (d name f.body).Perm (d' name f.body)
  apart : (d name f.body).Pairwise fun l m ↦
    f.body.IsLoop l → f.body.IsLoop m → f.body.Apart l m

namespace Function.Reordered

variable {s : Setup} {d d' : Discovery} {name : String} {f : Function} {vs vs' : List Verdict}
  {q q' : Program} (h : f.Reordered d d' name)

include h

theorem clean : f.body.Clean :=
  ⟨h.sound.targetsLive, h.isScaffold⟩

theorem nest (hall : ∀ l ∈ d name f.body, f.body.IsLoop l) : f.body.Nest (d name f.body) :=
  ⟨hall, h.apart.imp_of_mem fun hl hm hapart ↦ hapart (hall _ hl) (hall _ hm)⟩

theorem run_ok_iff : (∃ vs q, (convertFunction s d name).run f.body = .ok vs q) ↔
    ∃ vs q, (convertFunction s d' name).run f.body = .ok vs q := by
  by_cases hall : ∀ l ∈ d name f.body, f.body.IsLoop l
  · have hnest := h.nest hall
    rw [convertFunction_ok_iff h.clean hnest, convertFunction_ok_iff h.clean (hnest.perm h.perm)]
    exact forall_congr' fun l ↦ imp_congr_left h.perm.mem_iff
  · refine iff_of_false ?_ ?_
    · rintro ⟨vs, q, hrun⟩
      exact hall fun l hl ↦ exists_range_iff_isLoop.1
        (exists_range_of_run_convertFunction hrun l hl)
    · rintro ⟨vs, q, hrun⟩
      exact hall fun l hl ↦ exists_range_iff_isLoop.1
        (exists_range_of_run_convertFunction hrun l (h.perm.subset hl))

theorem exists_matching_of_run (hrun : (convertFunction s d name).run f.body = .ok vs q)
    (hrun' : (convertFunction s d' name).run f.body = .ok vs' q') :
    ∃ π, Matching name f.body π vs q vs' q' := by
  have hnest := h.nest fun l hl ↦
    exists_range_iff_isLoop.1 (exists_range_of_run_convertFunction hrun l hl)
  have hnest' := hnest.perm h.perm
  have hturns := f.body.turns_perm (d name f.body)
  have hperm : (f.body.turns (d name f.body)).Perm (f.body.turns (d' name f.body)) :=
    hturns.trans (h.perm.trans (f.body.turns_perm _).symm)
  obtain ⟨names, sites, hr⟩ :=
    exists_rewritten_of_run_convertFunction h.clean h.sound hnest.apart hrun
  obtain ⟨names', sites', hr'⟩ :=
    exists_rewritten_of_run_convertFunction h.clean h.sound hnest'.apart hrun'
  exact hr.exists_matching hr' h.sound (fun l hl ↦ hnest.isLoop l (hturns.subset hl)) hperm
    hnest.pairwise_later hnest'.pairwise_later

end Function.Reordered

namespace Function

variable {s : Setup} {d d' : Discovery} {name : String} {f : Function}
  (h : f.bodyAvailable = true → f.Reordered d d' name)

include h

theorem convert_ok_iff_of_reordered :
    (∃ vs, (f.convert s d name).1 = .ok vs) ↔ ∃ vs, (f.convert s d' name).1 = .ok vs := by
  cases havailable : f.bodyAvailable with
  | false =>
    rw [convert_of_bodyAvailable_eq_false havailable, convert_of_bodyAvailable_eq_false havailable]
  | true =>
    rw [convert_ok_iff havailable, convert_ok_iff havailable]
    exact (h havailable).run_ok_iff

theorem exists_matching_of_convert (hok : ∃ vs, (f.convert s d name).1 = .ok vs) :
    ∃ π, Matching name f.body π (f.verdicts s d name) (f.convert s d name).2.body
      (f.verdicts s d' name) (f.convert s d' name).2.body := by
  cases havailable : f.bodyAvailable with
  | false =>
    rw [verdicts, verdicts, convert_of_bodyAvailable_eq_false havailable,
      convert_of_bodyAvailable_eq_false havailable]
    exact ⟨id, fun _ _ ↦ rfl, by simp, .refl _, fun _ ↦ .refl _, .refl _, .refl _⟩
  | true =>
    obtain ⟨vs, hvs⟩ := hok
    obtain ⟨vs', hvs'⟩ := (convert_ok_iff_of_reordered h).1 ⟨vs, hvs⟩
    obtain ⟨q, hrun, hq⟩ := exists_run_of_convert havailable hvs
    obtain ⟨q', hrun', hq'⟩ := exists_run_of_convert havailable hvs'
    rw [verdicts_eq hvs, verdicts_eq hvs', hq, hq']
    exact (h havailable).exists_matching_of_run hrun hrun'

end Function

/-! ### All functions -/

namespace Functions

variable {fs : Functions} {s : Setup} {d d' : Discovery}

section

variable (h : ∀ name f, fs.get? name = some f → f.bodyAvailable = true → f.Reordered d d' name)

include h

theorem run_ok_iff_of_reordered : (∃ report, (fs.run s d).progress.outcome = .ok report) ↔
    ∃ report, (fs.run s d').progress.outcome = .ok report := by
  rw [run_ok_iff, run_ok_iff]
  exact forall_congr' fun name ↦ forall_congr' fun f ↦ imp_congr_right fun hf ↦
    Function.convert_ok_iff_of_reordered (h name f hf)

theorem exists_matching_of_reordered
    (hok : ∀ name f, fs.get? name = some f → ∃ vs, (f.convert s d name).1 = .ok vs) :
    ∃ π : String → InstrId → InstrId, ∀ name f, fs.get? name = some f →
      Matching name f.body (π name) (f.verdicts s d name) (f.convert s d name).2.body
        (f.verdicts s d' name) (f.convert s d' name).2.body := by
  have hall : ∀ name, ∃ π, ∀ f, fs.get? name = some f →
      Matching name f.body π (f.verdicts s d name) (f.convert s d name).2.body
        (f.verdicts s d' name) (f.convert s d' name).2.body := by
    intro name
    cases hf : fs.get? name with
    | none => exact ⟨id, fun f hf' ↦ by cases hf'⟩
    | some f =>
      obtain ⟨π, hπ⟩ := Function.exists_matching_of_convert (h name f hf) (hok name f hf)
      exact ⟨π, fun g hg ↦ by cases hg; exact hπ⟩
  choose π hπ using hall
  exact ⟨π, hπ⟩

end

/-- What is reported of all functions is renamed function by function. -/
theorem perm_flatMap_rename {l : List (String × Function)} {π : String → InstrId → InstrId}
    {F G : String × Function → List LoopSummary}
    (hname : ∀ e ∈ l, ∀ sm ∈ F e, sm.function = e.1)
    (hperm : ∀ e ∈ l, ((F e).map (LoopSummary.rename (π e.1))).Perm (G e)) :
    ((l.flatMap F).map fun sm ↦ sm.rename (π sm.function)).Perm (l.flatMap G) := by
  rw [List.map_flatMap]
  refine .flatMap_left _ fun e he ↦ ?_
  have hmap : (F e).map (fun sm ↦ sm.rename (π sm.function)) =
      (F e).map (LoopSummary.rename (π e.1)) :=
    List.map_congr_left fun sm hsm ↦ by rw [hname e he sm hsm]
  rw [hmap]
  exact hperm e he

/-- The order in which loops are discovered makes no difference. Where the functions have no
scaffolding and sound targets, and the loops of each are disjoint or lie strictly inside each other,
a run succeeds with both orders or with neither. Then for every function there is a renaming that
leaves the ids of the input alone, takes the one body to the other, with the same instructions in
the same order, and takes the one report to the other, up to the order of the loops. -/
theorem run_of_perm_discovery {fs : Functions} {s : Setup} {d d' : Discovery}
    (h : ∀ name f, fs.get? name = some f → f.bodyAvailable = true → f.Reordered d d' name) :
    ((∃ report, (fs.run s d).progress.outcome = .ok report) ↔
      ∃ report, (fs.run s d').progress.outcome = .ok report) ∧
    ∀ report report', (fs.run s d).progress.outcome = .ok report →
      (fs.run s d').progress.outcome = .ok report' → ∃ π : String → InstrId → InstrId,
        (∀ name f, fs.get? name = some f → (∀ id ∈ f.body.order, π name id = id) ∧
          ∃ g g', (fs.run s d).functions.get? name = some g ∧
            (fs.run s d').functions.get? name = some g' ∧ Renames (π name) g.body g'.body) ∧
        (report.converted.map fun sm ↦ sm.rename (π sm.function)).Perm report'.converted ∧
        (report.skipped.map fun sm ↦ sm.rename (π sm.function)).Perm report'.skipped := by
  refine ⟨run_ok_iff_of_reordered h, fun report report' hreport hreport' ↦ ?_⟩
  obtain ⟨π, hπ⟩ := exists_matching_of_reordered h (run_ok_iff.1 ⟨report, hreport⟩)
  have hentry : ∀ e ∈ fs.byName.entries,
      Matching e.1 e.2.body (π e.1) (e.2.verdicts s d e.1) (e.2.convert s d e.1).2.body
        (e.2.verdicts s d' e.1) (e.2.convert s d' e.1).2.body := fun e he ↦
    hπ e.1 e.2 (NameMap.mem_entries_iff_get?.1 he)
  refine ⟨π, fun name f hf ↦ ⟨(hπ name f hf).fixed, ?_⟩, ?_, ?_⟩
  · -- the bodies before have the same sizes, hence both get the same first number
    obtain ⟨location, hget⟩ := NameMap.exists_get?_mapAccum_map (m := fs.byName)
      (f := numberFunction) (fun name f ↦ (f.convert s d name).2)
      (fun name f ↦ (f.convert s d' name).2)
      (fun e he location ↦ congrArg (location + ·) (hentry e he).renames.size_eq.symm) 0 name
    have hg := hget _ (.inl rfl)
    have hg' := hget _ (.inr rfl)
    rw [show fs.byName.get? name = some f from hf, ← byName_run hreport] at hg
    rw [show fs.byName.get? name = some f from hf, ← byName_run hreport'] at hg'
    exact ⟨_, _, hg, hg', (hπ name f hf).numbered location⟩
  · rw [report_eq hreport, report_eq hreport']
    exact perm_flatMap_rename
      (fun e he sm hsm ↦ (hentry e he).function sm (List.mem_append_left _ hsm))
      fun e he ↦ (hentry e he).converted
  · rw [report_eq hreport, report_eq hreport']
    exact perm_flatMap_rename
      (fun e he sm hsm ↦ (hentry e he).function sm (List.mem_append_right _ hsm))
      fun e he ↦ (hentry e he).skipped

/-- Two loops of equal length, the one right behind the other and left into its head. -/
def adjacentLoops : Program :=
  .ofList [.goto ⟨3⟩ (.var ⟨"done", .bool⟩), .assert (.var ⟨"safe", .bool⟩),
    .goto ⟨0⟩ (.bool true), .goto ⟨6⟩ (.var ⟨"found", .bool⟩), .assert (.var ⟨"safe", .bool⟩),
    .goto ⟨3⟩ (.bool true), .endFunction]

/-- The loops of `adjacentLoops`. -/
def adjacentLoops.loops : List Loop :=
  [⟨⟨0⟩, ⟨2⟩, []⟩, ⟨⟨3⟩, ⟨5⟩, []⟩]

/-- Either loop of `adjacentLoops` may come first, though different ids are given out then. -/
theorem run_of_perm_discovery_adjacentLoops :
    let r := (single "main" adjacentLoops).run { config := .full } fun _ _ ↦ adjacentLoops.loops
    let r' := (single "main" adjacentLoops).run { config := .full }
      fun _ _ ↦ adjacentLoops.loops.reverse
    ∃ report report' g g', r.progress.outcome = .ok report ∧ r'.progress.outcome = .ok report' ∧
      r.functions.get? "main" = some g ∧ r'.functions.get? "main" = some g' ∧
      g.body.order ≠ g'.body.order ∧ ∃ π : String → InstrId → InstrId,
        Renames (π "main") g.body g'.body ∧
        (report.converted.map fun sm ↦ sm.rename (π sm.function)).Perm report'.converted := by
  intro r r'
  have hreordered : ∀ name f, (single "main" adjacentLoops).get? name = some f →
      f.bodyAvailable = true → f.Reordered (fun _ _ ↦ adjacentLoops.loops)
        (fun _ _ ↦ adjacentLoops.loops.reverse) name := by
    intro name f hf _
    rw [(eq_of_get?_single hf).2]
    exact ⟨by decide, by decide, (List.reverse_perm _).symm, by decide⟩
  obtain ⟨hiff, hmatching⟩ := run_of_perm_discovery (s := { config := .full }) hreordered
  obtain ⟨report, hreport⟩ : ∃ report, r.progress.outcome.toOption = some report :=
    Option.isSome_iff_exists.1 (by decide +kernel)
  replace hreport := eq_ok_of_toOption hreport
  obtain ⟨report', hreport'⟩ := hiff.1 ⟨report, hreport⟩
  obtain ⟨π, hbodies, hconverted, -⟩ := hmatching report report' hreport hreport'
  obtain ⟨-, g, g', hg, hg', hrenames⟩ := hbodies "main" (.ofBody adjacentLoops) rfl
  have horders : (r.functions.get? "main").map (·.body.order) ≠
      (r'.functions.get? "main").map (·.body.order) := by decide +kernel
  refine ⟨report, report', g, g', hreport, hreport', hg, hg', fun e ↦ horders ?_, π, hrenames,
    hconverted⟩
  rw [hg, hg', Option.map_some, Option.map_some, e]

end Functions

end LoopInduction
