import LoopInduction.Proofs.Conversion.Concurrency

/-!
# What the report accounts for

A run deals with the discovered loops of the functions that have a body, function after function in
the order of their names. Within a function the longest loops come first, as a stable sort by their
length in the input puts them (`Program.turns_eq_mergeSort`). Every loop of this `Functions.agenda`
is either converted or skipped with one warning, and the report and the warnings keep the order of
the agenda (`Functions.run_accounts`). Nothing is asked of the loops here: they may overlap or be
listed twice.

The verdicts of a run are about the loops of the agenda one by one (`Functions.accounted_agenda`).
Report and warnings are read off the verdicts, so they deal the loops out (`DealtOut.of_accounted`).

## Main definitions

* `DiscoveredLoop` : a loop with the function that it was discovered in.
* `Functions.agenda` : the loops that a run deals with, in their order.
* `DiscoveredLoop.Accounted` : a verdict is about a loop.
* `DealtOut` : each of some loops is converted, or skipped with a warning.
* `Functions.Accounts` : what the report and the warnings say of the loops of the agenda.

## Main results

* `Functions.run_accounts` : the report and the warnings of a run account for all its loops.
-/

namespace LoopInduction

/-! ### The order of the loops -/

theorem insertBySize_append {x : Nat × Loop} {before after : List (Nat × Loop)}
    (hbefore : ∀ y ∈ before, x.1 < y.1) (hafter : ∀ y ∈ after, y.1 ≤ x.1) :
    insertBySize x (before ++ after) = before ++ x :: after := by
  induction before with
  | nil =>
    cases after with
    | nil => rfl
    | cons y after => exact if_pos (hafter y List.mem_cons_self)
  | cons y before ih =>
    have hlt := hbefore y List.mem_cons_self
    rw [List.cons_append, insertBySize, if_neg (by omega),
      ih fun z hz ↦ hbefore z (List.mem_cons_of_mem _ hz), List.cons_append]

/-- Putting one loop after the other in its place is a stable sort. -/
theorem foldr_insertBySize (l : List (Nat × Loop)) :
    l.foldr insertBySize [] = l.mergeSort fun x y ↦ decide (y.1 ≤ x.1) := by
  have htrans : ∀ x y z : Nat × Loop, decide (y.1 ≤ x.1) = true → decide (z.1 ≤ y.1) = true →
      decide (z.1 ≤ x.1) = true := by
    simp only [decide_eq_true_eq]
    omega
  have htotal : ∀ x y : Nat × Loop, (decide (y.1 ≤ x.1) || decide (x.1 ≤ y.1)) = true := by
    simp only [Bool.or_eq_true, decide_eq_true_eq]
    omega
  induction l with
  | nil => exact List.mergeSort_nil.symm
  | cons x l ih =>
    obtain ⟨before, after, hsort, hrest, hbefore⟩ := List.mergeSort_cons htrans htotal x l
    have hsorted := List.pairwise_mergeSort htrans htotal (x :: l)
    rw [hsort, List.pairwise_append, List.pairwise_cons] at hsorted
    rw [List.foldr_cons, ih, hrest, hsort]
    refine insertBySize_append (fun y hy ↦ ?_) fun y hy ↦ of_decide_eq_true (hsorted.2.1.1 y hy)
    simpa using hbefore y hy

/-- The loops of a function are dealt with by decreasing length; those of equal length keep the
order in which they were discovered. -/
theorem Program.turns_eq_mergeSort (p : Program) (loops : List Loop) :
    p.turns loops = loops.mergeSort fun l m ↦ decide (p.span m ≤ p.span l) := by
  have hmap : (loops.mergeSort fun l m ↦ decide (p.span m ≤ p.span l)).map
      (fun l ↦ (p.span l, l)) =
        (loops.map fun l ↦ (p.span l, l)).mergeSort fun x y ↦ decide (y.1 ≤ x.1) :=
    List.map_mergeSort fun _ _ _ _ ↦ rfl
  rw [turns, longestFirst, foldr_insertBySize, ← hmap, List.map_map]
  exact List.map_id _

/-! ### The loops of a run -/

/-- A loop with the function that it was discovered in, as the function was given. -/
structure DiscoveredLoop where
  function : String
  body : Program
  loop : Loop

/-- The loops of all functions that have a body, function after function in the order of their
names. Within a function the longest loops come first, and those of equal length in the order in
which they were discovered. -/
def Functions.agenda (fs : Functions) (discovery : Discovery) : List DiscoveredLoop :=
  (fs.byName.entries.filter (·.2.bodyAvailable)).flatMap fun e ↦
    ((discovery e.1 e.2.body).mergeSort fun l m ↦
      decide (e.2.body.span m ≤ e.2.body.span l)).map (⟨e.1, e.2.body, ·⟩)

/-- The summary is about the loop. -/
structure LoopSummary.IsOf (sm : LoopSummary) (d : DiscoveredLoop) : Prop where
  function_eq : sm.function = d.function
  head_eq : sm.head = d.loop.head
  exit_eq : sm.exit = d.loop.exit

/-- The warning is about the loop: it names the function and the place of the head. -/
structure Warning.IsOf (w : Warning) (d : DiscoveredLoop) : Prop where
  function_eq : w.function = d.function
  location_eq : w.location = (d.body.fetch d.loop.head).location

/-- The verdict is about the loop. Only a converted loop has a jump that its condition was taken
from, and a skipped one is warned about. -/
inductive DiscoveredLoop.Accounted (d : DiscoveredLoop) : Verdict → Prop
  | converted {sm : LoopSummary} : sm.IsOf d → sm.branch.isSome = true → Accounted d (.converted sm)
  | skipped {sm : LoopSummary} {w : Warning} : sm.IsOf d → sm.branch = none → w.IsOf d →
    Accounted d (.skipped sm w)

/-- The loops are dealt out in their order. A loop goes to the converted ones, or it goes to the
skipped ones and a warning goes out. -/
inductive DealtOut :
    List DiscoveredLoop → List LoopSummary → List LoopSummary → List Warning → Prop
  | nil : DealtOut [] [] [] []
  | converted {d : DiscoveredLoop} {sm : LoopSummary} {ds : List DiscoveredLoop}
      {converted skipped : List LoopSummary} {warnings : List Warning} :
    sm.IsOf d → sm.branch.isSome = true → DealtOut ds converted skipped warnings →
    DealtOut (d :: ds) (sm :: converted) skipped warnings
  | skipped {d : DiscoveredLoop} {sm : LoopSummary} {w : Warning} {ds : List DiscoveredLoop}
      {converted skipped : List LoopSummary} {warnings : List Warning} :
    sm.IsOf d → sm.branch = none → w.IsOf d → DealtOut ds converted skipped warnings →
    DealtOut (d :: ds) converted (sm :: skipped) (w :: warnings)

namespace DealtOut

variable {d : DiscoveredLoop} {ds : List DiscoveredLoop} {vs : List Verdict}
  {converted skipped : List LoopSummary} {warnings : List Warning}

/-- What is read off verdicts on the loops deals them out. -/
theorem of_accounted (h : List.Forall₂ DiscoveredLoop.Accounted ds vs) :
    DealtOut ds (vs.filterMap Verdict.converted?) (vs.filterMap Verdict.skipped?)
      (vs.filterMap Verdict.warning?) := by
  induction h with
  | nil => exact .nil
  | @cons d v ds vs hd _ ih =>
    rcases v.converted_or_skipped with
      ⟨sm, rfl, hconverted, hskipped, hwarning⟩ | ⟨sm, w, rfl, hconverted, hskipped, hwarning⟩
    · rw [List.filterMap_cons_some hconverted, List.filterMap_cons_none hskipped,
        List.filterMap_cons_none hwarning]
      cases hd with
      | converted hsm hbranch => exact .converted hsm hbranch ih
    · rw [List.filterMap_cons_none hconverted, List.filterMap_cons_some hskipped,
        List.filterMap_cons_some hwarning]
      cases hd with
      | skipped hsm hbranch hw => exact .skipped hsm hbranch hw ih

variable (h : DealtOut ds converted skipped warnings)

include h

theorem converted_or_skipped (hd : d ∈ ds) :
    (∃ sm ∈ converted, sm.IsOf d) ∨ ∃ sm ∈ skipped, sm.IsOf d := by
  induction h with
  | nil => cases hd
  | converted hsm _ _ ih =>
    rcases List.mem_cons.1 hd with rfl | hd
    · exact .inl ⟨_, List.mem_cons_self, hsm⟩
    · exact (ih hd).imp_left fun ⟨sm, hmem, hof⟩ ↦ ⟨sm, List.mem_cons_of_mem _ hmem, hof⟩
  | skipped hsm _ _ _ ih =>
    rcases List.mem_cons.1 hd with rfl | hd
    · exact .inr ⟨_, List.mem_cons_self, hsm⟩
    · exact (ih hd).imp_right fun ⟨sm, hmem, hof⟩ ↦ ⟨sm, List.mem_cons_of_mem _ hmem, hof⟩

theorem length_add_length : converted.length + skipped.length = ds.length := by
  induction h with
  | nil => rfl
  | converted _ _ _ ih =>
    simp only [List.length_cons]
    omega
  | skipped _ _ _ _ ih =>
    simp only [List.length_cons]
    omega

/-- The warnings are about the skipped loops, one by one. -/
theorem warned : List.Forall₂ (fun sm w ↦ ∃ d ∈ ds, sm.IsOf d ∧ w.IsOf d) skipped warnings := by
  induction h with
  | nil => exact .nil
  | converted _ _ _ ih =>
    exact ih.imp fun _ _ ⟨d, hd, hof⟩ ↦ ⟨d, List.mem_cons_of_mem _ hd, hof⟩
  | skipped hsm _ hw _ ih =>
    exact .cons ⟨_, List.mem_cons_self, hsm, hw⟩
      (ih.imp fun _ _ ⟨d, hd, hof⟩ ↦ ⟨d, List.mem_cons_of_mem _ hd, hof⟩)

end DealtOut

/-- The report and the warnings account for the loops of the agenda. -/
structure Functions.Accounts (fs : Functions) (discovery : Discovery) (report : Report)
    (warnings : List Warning) : Prop where
  dealtOut : DealtOut (fs.agenda discovery) report.converted report.skipped warnings
  converted_or_skipped : ∀ d ∈ fs.agenda discovery,
    (∃ sm ∈ report.converted, sm.IsOf d) ∨ ∃ sm ∈ report.skipped, sm.IsOf d
  length_add_length :
    report.converted.length + report.skipped.length = (fs.agenda discovery).length
  /-- The warnings are about the skipped loops of the report, one by one and in their order. -/
  warned : List.Forall₂ (fun sm w ↦ w.function = sm.function ∧ ∃ f, fs.get? sm.function = some f ∧
    w.location = (f.body.fetch sm.head).location) report.skipped warnings

variable {s : Setup} {discovery : Discovery} {name : String} {p q r : Program} {l : Loop}
  {v : Verdict} {vs : List Verdict}

/-! ### One function -/

/-- What dealing with a loop says of it is about the loop, whatever was done before. -/
theorem Edit.accounted_of_run (hext : p.Extends q) (hhead : l.head ∈ p.order)
    (hrun : (convertLoop s name l).run q = .ok v r) :
    DiscoveredLoop.Accounted ⟨name, p, l⟩ v := by
  cases v with
  | converted sm =>
    obtain ⟨condition, -, hconvert⟩ := exists_of_run_convertLoop hrun
    obtain ⟨hfunction, hsmHead, hsmExit, hbranch⟩ := names_of_run_convertWith hconvert
    exact .converted ⟨hfunction, hsmHead, hsmExit⟩ (Option.isSome_of_eq_some hbranch)
  | skipped sm w =>
    obtain ⟨-, rfl, rfl⟩ := eq_of_run_skipped hrun
    exact .skipped ⟨rfl, rfl, rfl⟩ rfl ⟨rfl, (hext.retained _ hhead).location_eq⟩

/-- The verdicts on the loops of a function are about its loops, in their order. A function all of
whose loops are skipped stays as it was. -/
theorem accounted_of_run_convertFunction
    (hrun : (convertFunction s discovery name).run p = .ok vs q) :
    List.Forall₂ (fun l v ↦ DiscoveredLoop.Accounted ⟨name, p, l⟩ v)
        (p.turns (discovery name p)) vs ∧
      ((∀ sm, .converted sm ∉ vs) → q = p) := by
  have hrange := exists_range_of_run_convertFunction hrun
  rw [run_convertFunction hrange] at hrun
  obtain ⟨pairs, hfst, hsnd, -, -, haccounted, hsame⟩ := EStateM.invariant_of_run_mapM
    (I := fun done todo q ↦ p.Extends q ∧ (∀ l ∈ todo, l.head ∈ p.order) ∧
      (∀ e ∈ done, DiscoveredLoop.Accounted ⟨name, p, e.1⟩ e.2) ∧
      ((∀ e ∈ done, ∀ sm, e.2 ≠ .converted sm) → q = p))
    (fun done l todo q v r ⟨hext, htodo, haccounted, hsame⟩ hstep ↦ by
      have hrun := Edit.run_of_run_atLoop hstep
      obtain ⟨hhead, htodo⟩ := List.forall_mem_cons.1 htodo
      refine ⟨hext.trans (Edit.ends_convertLoop.of_run_ok hrun).extension, htodo, ?_, fun hall ↦ ?_⟩
      · intro e he
        rcases List.mem_append.1 he with he | he
        · exact haccounted e he
        · rw [List.mem_singleton.1 he]
          exact Edit.accounted_of_run hext hhead hrun
      · cases v with
        | converted sm => exact absurd rfl (hall (l, .converted sm) (by simp) sm)
        | skipped sm w =>
          rw [(Edit.eq_of_run_skipped hrun).1]
          exact hsame fun e he ↦ hall e (List.mem_append_left _ he))
    ⟨.refl p, fun l hl ↦ (Program.range_eq_ok
        (hrange l ((p.turns_perm _).subset hl)).choose_spec).1,
      fun _ he ↦ absurd he List.not_mem_nil, fun _ ↦ rfl⟩ hrun
  rw [List.nil_append] at haccounted hsame
  rw [← hfst, ← hsnd, List.forall₂_map_left_iff, List.forall₂_map_right_iff, List.forall₂_same]
  refine ⟨haccounted, fun hnone ↦ hsame fun e he sm hv ↦ hnone sm ?_⟩
  exact hv ▸ List.mem_map_of_mem he

namespace Function

variable {f : Function}

theorem accounted_verdicts (havailable : f.bodyAvailable = true)
    (h : ∃ vs, (f.convert s discovery name).1 = .ok vs) :
    List.Forall₂ (fun l v ↦ DiscoveredLoop.Accounted ⟨name, f.body, l⟩ v)
      (f.body.turns (discovery name f.body)) (f.verdicts s discovery name) := by
  obtain ⟨vs, hvs⟩ := h
  obtain ⟨q, hrun, -⟩ := exists_run_of_convert havailable hvs
  rw [verdicts_eq hvs]
  exact (accounted_of_run_convertFunction hrun).1

theorem function_of_mem_verdicts {sm : LoopSummary}
    (h : ∃ vs, (f.convert s discovery name).1 = .ok vs)
    (hsm : .converted sm ∈ f.verdicts s discovery name) : sm.function = name := by
  obtain ⟨vs, hvs⟩ := h
  rw [verdicts_eq hvs] at hsm
  cases havailable : f.bodyAvailable with
  | false =>
    rw [convert_of_bodyAvailable_eq_false havailable] at hvs
    cases hvs
    cases hsm
  | true =>
    obtain ⟨q, hrun, -⟩ := exists_run_of_convert havailable hvs
    exact function_of_run_convertFunction hrun hsm

/-- A function none of whose loops is converted stays as it was. -/
theorem convert_eq_self (h : ∃ vs, (f.convert s discovery name).1 = .ok vs)
    (hnone : ∀ sm, .converted sm ∉ f.verdicts s discovery name) :
    (f.convert s discovery name).2 = f := by
  cases havailable : f.bodyAvailable with
  | false => rw [convert_of_bodyAvailable_eq_false havailable]
  | true =>
    obtain ⟨vs, hvs⟩ := h
    obtain ⟨q, hrun, -⟩ := exists_run_of_convert havailable hvs
    rw [verdicts_eq hvs] at hnone
    rw [convert, if_pos havailable, hrun, (accounted_of_run_convertFunction hrun).2 hnone]

/-- Of a function without a body nothing is asked. -/
theorem convert_congr {discovery' : Discovery}
    (h : f.bodyAvailable = true → discovery' name f.body = discovery name f.body) :
    f.convert s discovery' name = f.convert s discovery name := by
  cases havailable : f.bodyAvailable with
  | false =>
    rw [convert_of_bodyAvailable_eq_false havailable, convert_of_bodyAvailable_eq_false havailable]
  | true =>
    have hrun : (convertFunction s discovery' name).run f.body =
        (convertFunction s discovery name).run f.body := by
      rw [run_convertFunction_eq, run_convertFunction_eq, h havailable]
    rw [convert, convert, hrun]

end Function

/-! ### All functions -/

namespace Functions

variable {fs : Functions} {report : Report}

/-- The loops of the agenda are there, and are sorted by the number of instructions of their
bodies. -/
theorem exists_range_of_mem_agenda
    (h : ∀ e ∈ fs.byName.entries, ∃ vs, (e.2.convert s discovery e.1).1 = .ok vs)
    {d : DiscoveredLoop} (hd : d ∈ fs.agenda discovery) :
    ∃ ids, d.body.range d.loop.head d.loop.exit = .ok ids ∧ ids.length = d.body.span d.loop := by
  obtain ⟨e, he, hd⟩ := List.mem_flatMap.1 hd
  obtain ⟨l, hl, rfl⟩ := List.mem_map.1 hd
  obtain ⟨he, havailable⟩ := List.mem_filter.1 he
  obtain ⟨vs, hvs⟩ := h e he
  obtain ⟨q, hrun, -⟩ := Function.exists_run_of_convert havailable hvs
  obtain ⟨ids, hids⟩ := exists_range_of_run_convertFunction hrun l (List.mem_mergeSort.1 hl)
  refine ⟨ids, hids, ?_⟩
  rw [Program.span, Program.length_of_range hids, Nat.add_sub_cancel_left]

/-- A loop of the agenda comes with its function as it was given. -/
theorem get?_of_mem_agenda {d : DiscoveredLoop} (hd : d ∈ fs.agenda discovery) :
    ∃ f, fs.get? d.function = some f ∧ f.body = d.body := by
  obtain ⟨e, he, hd⟩ := List.mem_flatMap.1 hd
  obtain ⟨l, -, rfl⟩ := List.mem_map.1 hd
  exact ⟨e.2, NameMap.mem_entries_iff_get?.1 (List.mem_filter.1 he).1, rfl⟩

/-- The verdicts of all functions are about the loops of the agenda, in their order. -/
theorem accounted_agenda
    (h : ∀ e ∈ fs.byName.entries, ∃ vs, (e.2.convert s discovery e.1).1 = .ok vs) :
    List.Forall₂ DiscoveredLoop.Accounted (fs.agenda discovery)
      (fs.byName.entries.flatMap fun e ↦ e.2.verdicts s discovery e.1) := by
  rw [agenda]
  generalize fs.byName.entries = entries at h
  induction entries with
  | nil => exact .nil
  | cons e entries ih =>
    obtain ⟨he, hrest⟩ := List.forall_mem_cons.1 h
    rw [List.flatMap_cons]
    cases havailable : e.2.bodyAvailable with
    | false =>
      obtain ⟨vs, hvs⟩ := he
      have hnone : e.2.verdicts s discovery e.1 = [] := by
        rw [Function.verdicts, Function.convert_of_bodyAvailable_eq_false havailable]
      rw [List.filter_cons_of_neg (by simp [havailable]), hnone]
      exact ih hrest
    | true =>
      rw [List.filter_cons_of_pos (by simpa using havailable), List.flatMap_cons,
        ← Program.turns_eq_mergeSort]
      exact List.rel_append
        (List.forall₂_map_left_iff.2 (Function.accounted_verdicts havailable he)) (ih hrest)

theorem warnings_mapAccumEntries {progress : Progress} (h : progress.outcome = .ok report)
    {l : List (String × Function)}
    (hl : ∀ e ∈ l, ∃ vs, (e.2.convert s discovery e.1).1 = .ok vs) :
    (NameMap.mapAccumEntries (convertNext s discovery) progress l).1.warnings =
      progress.warnings ++ l.flatMap fun e ↦ e.2.warnings s discovery e.1 := by
  induction l generalizing progress report with
  | nil => simp [NameMap.mapAccumEntries]
  | cons e l ih =>
    obtain ⟨⟨vs, hvs⟩, hrest⟩ := List.forall_mem_cons.1 hl
    rw [NameMap.mapAccumEntries, convertNext_of_ok h, hvs, Progress.absorb_ok h]
    simp only
    rw [ih rfl hrest, List.flatMap_cons, Function.warnings, Function.verdicts_eq hvs,
      List.append_assoc]

/-- What the discovery says of functions without a body does not matter. -/
theorem run_congr {discovery' : Discovery}
    (h : ∀ name f, fs.get? name = some f → f.bodyAvailable = true →
      discovery' name f.body = discovery name f.body) :
    fs.run s discovery' = fs.run s discovery := by
  have hnext : ∀ e ∈ fs.byName.entries, ∀ progress,
      convertNext s discovery' progress e.1 e.2 = convertNext s discovery progress e.1 e.2 := by
    intro e he progress
    rw [convertNext, convertNext,
      Function.convert_congr (h e.1 e.2 (NameMap.mem_entries_iff_get?.1 he))]
  rw [run, run, NameMap.mapAccum_congr hnext]

/-- A function of which the report has no converted loop is left as it was. -/
theorem convert_eq_self_of_forall_ne (h : (fs.run s discovery).progress.outcome = .ok report)
    {f : Function} (hf : fs.get? name = some f)
    (hnone : ∀ sm ∈ report.converted, sm.function ≠ name) :
    (f.convert s discovery name).2 = f := by
  have hok := run_ok_iff.1 ⟨report, h⟩ name f hf
  refine Function.convert_eq_self hok fun sm hsm ↦ ?_
  exact hnone sm ((mem_converted_run_iff h).2 ⟨name, f, hf, hsm⟩)
    (Function.function_of_mem_verdicts hok hsm)

/-- What deals the loops of the agenda out accounts for them. -/
theorem accounts_of_dealtOut {warnings : List Warning}
    (h : DealtOut (fs.agenda discovery) report.converted report.skipped warnings) :
    fs.Accounts discovery report warnings where
  dealtOut := h
  converted_or_skipped _ := h.converted_or_skipped
  length_add_length := h.length_add_length
  warned := by
    refine h.warned.imp fun sm w ⟨d, hd, hsm, hw⟩ ↦ ⟨hw.function_eq.trans hsm.function_eq.symm, ?_⟩
    obtain ⟨f, hf, hbody⟩ := get?_of_mem_agenda hd
    refine ⟨f, hsm.function_eq.symm ▸ hf, ?_⟩
    rw [hw.location_eq, hbody, hsm.head_eq]

/-- The report and the warnings of a run that succeeds are read off the verdicts on the agenda. -/
theorem dealtOut_of_run (h : (fs.run s discovery).progress.outcome = .ok report)
    (hall : ∀ e ∈ fs.byName.entries, ∃ vs, (e.2.convert s discovery e.1).1 = .ok vs) :
    DealtOut (fs.agenda discovery) report.converted report.skipped
      (fs.run s discovery).progress.warnings := by
  have hwarnings : (fs.run s discovery).progress.warnings =
      fs.byName.entries.flatMap fun e ↦ e.2.warnings s discovery e.1 :=
    warnings_mapAccumEntries rfl hall
  have hdealt := DealtOut.of_accounted (accounted_agenda hall)
  simp only [List.filterMap_flatMap] at hdealt
  rw [hwarnings, report_eq h]
  exact hdealt

/-- After a run that succeeds every loop of the agenda has been converted or skipped, and every
skipped one has been warned about once. The report and the warnings keep the order of the agenda,
in which the discovery is asked for functions with a body only. One refresh ends the run; a function
of which no loop was converted comes to it as it was given, and only its numbers are new. -/
theorem run_accounts (h : (fs.run s discovery).progress.outcome = .ok report) :
    fs.Accounts discovery report (fs.run s discovery).progress.warnings ∧
    (∀ d ∈ fs.agenda discovery, ∃ ids, d.body.range d.loop.head d.loop.exit = .ok ids ∧
      ids.length = d.body.span d.loop) ∧
    (∀ discovery' : Discovery, (∀ name f, fs.get? name = some f → f.bodyAvailable = true →
      discovery' name f.body = discovery name f.body) → fs.run s discovery' = fs.run s discovery) ∧
    ∃ fs' : Functions, (fs.run s discovery).functions = fs'.refresh ∧ fs'.calls = fs.calls ∧
      fs'.revision = fs.revision ∧
      ∀ name f, fs.get? name = some f → (∀ sm ∈ report.converted, sm.function ≠ name) →
        fs'.get? name = some f ∧ ∃ location,
          (fs.run s discovery).functions.get? name =
            some { f with body := f.body.numbered location } ∧
          Renumbered f.body (f.body.numbered location) ∧
          (f.body.numbered location).slots.size = f.body.slots.size := by
  have hall : ∀ e ∈ fs.byName.entries, ∃ vs, (e.2.convert s discovery e.1).1 = .ok vs :=
    fun e he ↦ run_ok_iff.1 ⟨report, h⟩ e.1 e.2 (NameMap.mem_entries_iff_get?.1 he)
  refine ⟨accounts_of_dealtOut (dealtOut_of_run h hall), fun d ↦ exists_range_of_mem_agenda hall,
    fun discovery' ↦ run_congr, _, functions_run h, rfl, rfl, fun name f hf hnone ↦ ?_⟩
  have hself := convert_eq_self_of_forall_ne h hf hnone
  have hget : (fs.byName.map fun name (f : Function) ↦ (f.convert s discovery name).2).get? name =
      some f := by
    rw [NameMap.get?_map, show fs.byName.get? name = some f from hf, Option.map_some, hself]
  obtain ⟨location, hnumbered⟩ := NameMap.get?_mapAccum numberFunction 0 name
    (m := fs.byName.map fun name (f : Function) ↦ (f.convert s discovery name).2)
  refine ⟨hget, location, ?_, .numbered f.body location, Program.size_slots_numbered⟩
  rw [functions_run h]
  rw [hget] at hnumbered
  exact hnumbered

/-- A function without a body, one with a loop that is never left, and one with a loop that is left
and another of the same length that is not. -/
def idleFunctions : Functions where
  byName := .ofList [("c", .ofBody (.ofList [.goto ⟨2⟩ (.var ⟨"done", .bool⟩),
      .goto ⟨0⟩ (.bool true), .assert (.var ⟨"safe", .bool⟩), .goto ⟨2⟩ (.bool true),
      .endFunction])),
    ("a", .withoutBody), ("b", .ofBody (.ofList [.skip, .goto ⟨0⟩ (.bool true), .endFunction]))]

/-- The loops of `idleFunctions`. No loop of the first function is there. -/
def idleFunctions.loops : Discovery := fun name _ ↦
  if name = "a" then [⟨⟨7⟩, ⟨9⟩, []⟩]
  else if name = "b" then [⟨⟨0⟩, ⟨1⟩, []⟩]
  else [⟨⟨2⟩, ⟨3⟩, []⟩, ⟨⟨0⟩, ⟨1⟩, []⟩]

/-- The loops of the second function and the first loop of the third one are skipped, and the second
function stays as it was. -/
theorem run_accounts_idleFunctions :
    let r := idleFunctions.run { config := .full } idleFunctions.loops
    ∃ report, r.progress.outcome = .ok report ∧
      (idleFunctions.agenda idleFunctions.loops).map (fun d ↦ (d.function, d.loop.head)) =
        [("b", ⟨0⟩), ("c", ⟨2⟩), ("c", ⟨0⟩)] ∧
      report.converted.map (fun sm ↦ (sm.function, sm.head)) = [("c", ⟨0⟩)] ∧
      report.skipped.map (fun sm ↦ (sm.function, sm.head)) = [("b", ⟨0⟩), ("c", ⟨2⟩)] ∧
      r.progress.warnings.map Warning.function = ["b", "c"] ∧
      idleFunctions.Accounts idleFunctions.loops report r.progress.warnings ∧
      ∃ f location, idleFunctions.get? "b" = some f ∧
        r.functions.get? "b" = some { f with body := f.body.numbered location } ∧
        Renumbered f.body (f.body.numbered location) := by
  intro r
  have hreport : r.progress.outcome.toOption.map (fun report ↦
      (report.converted.map (fun sm ↦ (sm.function, sm.head)),
        report.skipped.map fun sm ↦ (sm.function, sm.head))) =
      some ([("c", ⟨0⟩)], [("b", ⟨0⟩), ("c", ⟨2⟩)]) := by decide +kernel
  have hagenda : (idleFunctions.agenda idleFunctions.loops).map
      (fun d ↦ (d.function, d.loop.head)) = [("b", ⟨0⟩), ("c", ⟨2⟩), ("c", ⟨0⟩)] := by
    simp only [agenda, ← Program.turns_eq_mergeSort]
    decide +kernel
  have hwarnings : r.progress.warnings.map Warning.function = ["b", "c"] := by decide +kernel
  cases hrun : r.progress.outcome with
  | error fault =>
    rw [hrun] at hreport
    cases hreport
  | ok report =>
    rw [hrun] at hreport
    obtain ⟨hconverted, hskipped⟩ := Prod.mk.inj (Option.some.inj hreport)
    obtain ⟨haccounts, -, -, fs', -, -, -, hsame⟩ := run_accounts hrun
    obtain ⟨f, hf⟩ : ∃ f, idleFunctions.get? "b" = some f :=
      Option.isSome_iff_exists.1 (by decide +kernel)
    have hnone : ∀ sm ∈ report.converted, sm.function ≠ "b" := by
      intro sm hsm he
      have hmem := List.mem_map_of_mem (f := fun sm : LoopSummary ↦ (sm.function, sm.head)) hsm
      rw [hconverted, List.mem_singleton, he] at hmem
      exact absurd (congrArg Prod.fst hmem) (show "b" ≠ "c" by decide)
    obtain ⟨-, location, hget, hrenumbered, -⟩ := hsame "b" f hf hnone
    exact ⟨report, rfl, hagenda, hconverted, hskipped, hwarnings, haccounts, f, location, hf, hget,
      hrenumbered⟩

end Functions

end LoopInduction
