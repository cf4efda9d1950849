import LoopInduction.Proofs.Conversion.Function
import LoopInduction.Proofs.Functions.Refresh
import LoopInduction.Proofs.Outcome

/-!
# Converting all functions

A run succeeds exactly if every function on its own is converted without a fault
(`Functions.run_ok_iff`). Then it leaves of every function what its own conversion leaves, up to the
numbers of the instructions (`Functions.byName_run`, `Functions.get?_run`), and its report holds the
loops of all functions (`Functions.report_eq`, `Functions.mem_converted_run_iff`).

## Main definitions

* `Renumbered` : two programs differ in the numbers of their instructions only.
-/

namespace LoopInduction

/-! ### Numbers -/

/-- The programs differ in the numbers of their instructions only. -/
structure Renumbered (p q : Program) : Prop where
  order : q.order = p.order
  get? : ∀ id, ∃ location target, q.get? id = (p.get? id).map fun i ↦ { i with
    locationNumber := location
    targetNumber := target }

namespace Renumbered

variable {p q : Program} {id : InstrId}

theorem numbered (p : Program) (location : Nat) : Renumbered p (p.numbered location) where
  order := rfl
  get? id := by
    rw [Program.numbered_eq, Program.get?_map]
    exact ⟨_, _, rfl⟩

/-- An instruction is the same but for its numbers. -/
theorem exists_fetch_eq (h : Renumbered p q) (id : InstrId) :
    ∃ location target, q.fetch id = { p.fetch id with
      locationNumber := location
      targetNumber := target } := by
  obtain ⟨location, target, hget⟩ := h.get? id
  rw [Program.fetch, Program.fetch, hget]
  cases p.get? id with
  | none => exact ⟨0, none, rfl⟩
  | some i => exact ⟨location, target, rfl⟩

theorem next?_eq (h : Renumbered p q) (id : InstrId) : q.next? id = p.next? id :=
  Program.next?_congr h.order

theorem refl (p : Program) : Renumbered p p where
  order := rfl
  get? id := by
    cases hi : p.get? id with
    | none => exact ⟨0, none, rfl⟩
    | some i => exact ⟨i.locationNumber, i.targetNumber, rfl⟩

theorem of_eq_or (h : q = p ∨ ∃ location, q = p.numbered location) : Renumbered p q := by
  rcases h with rfl | ⟨location, rfl⟩
  · exact .refl q
  · exact .numbered p location

end Renumbered

variable {s : Setup} {discovery : Discovery} {name : String}

/-! ### One function after the other -/

namespace Function

/-- What becomes of the loops of a function, if its conversion succeeds. -/
def verdicts (s : Setup) (discovery : Discovery) (name : String) (f : Function) : List Verdict :=
  match (f.convert s discovery name).1 with
  | .ok vs => vs
  | .error _ => []

theorem verdicts_eq {f : Function} {vs : List Verdict}
    (h : (f.convert s discovery name).1 = .ok vs) : f.verdicts s discovery name = vs := by
  rw [verdicts, h]

@[simp] theorem bodyAvailable_convert (f : Function) :
    (f.convert s discovery name).2.bodyAvailable = f.bodyAvailable := by
  rw [convert]
  split
  · split <;> rfl
  · rfl

theorem convert_of_bodyAvailable_eq_false {f : Function} (h : f.bodyAvailable = false) :
    f.convert s discovery name = (.ok [], f) := by
  rw [convert, h]
  rfl

/-- A function with a body is what the conversion of its loops leaves. -/
theorem exists_run_of_convert {f : Function} {vs : List Verdict} (h : f.bodyAvailable = true)
    (hvs : (f.convert s discovery name).1 = .ok vs) :
    ∃ q, (convertFunction s discovery name).run f.body = .ok vs q ∧
      (f.convert s discovery name).2.body = q := by
  rw [convert, if_pos h] at hvs ⊢
  cases hrun : (convertFunction s discovery name).run f.body with
  | error e q =>
    rw [hrun] at hvs
    cases hvs
  | ok ws q =>
    rw [hrun] at hvs
    cases hvs
    exact ⟨q, rfl, rfl⟩

theorem convert_ok_iff {f : Function} (h : f.bodyAvailable = true) :
    (∃ vs, (f.convert s discovery name).1 = .ok vs) ↔
      ∃ vs q, (convertFunction s discovery name).run f.body = .ok vs q := by
  constructor
  · rintro ⟨vs, hvs⟩
    obtain ⟨q, hrun, -⟩ := exists_run_of_convert h hvs
    exact ⟨vs, q, hrun⟩
  · rintro ⟨vs, q, hrun⟩
    exact ⟨vs, by rw [convert, if_pos h, hrun]⟩

theorem body_convert {f : Function} (h : f.bodyAvailable = true) :
    (f.convert s discovery name).2.body =
      EStateM.stateAfter (convertFunction s discovery name) f.body := by
  rw [convert, if_pos h, EStateM.stateAfter]
  cases (convertFunction s discovery name).run f.body <;> rfl

/-- What a run may leave of a function: the body as it was or as its conversion leaves it, whether
that succeeds or stops, and its numbers brought up to date or not. -/
structure Left (s : Setup) (discovery : Discovery) (name : String) (f g : Function) : Prop where
  bodyAvailable : g.bodyAvailable = f.bodyAvailable
  body : ∃ q, (q = f.body ∨ f.bodyAvailable = true ∧
      q = EStateM.stateAfter (convertFunction s discovery name) f.body) ∧
    (g.body = q ∨ ∃ location, g.body = q.numbered location)

theorem Left.of_eq {f g h : Function} (hh : h = f ∨ h = (f.convert s discovery name).2)
    (hg : g = h ∨ ∃ location, g = { h with body := h.body.numbered location }) :
    f.Left s discovery name g := by
  have hbody : h.bodyAvailable = f.bodyAvailable ∧ (h.body = f.body ∨ f.bodyAvailable = true ∧
      h.body = EStateM.stateAfter (convertFunction s discovery name) f.body) := by
    rcases hh with rfl | rfl
    · exact ⟨rfl, .inl rfl⟩
    · refine ⟨bodyAvailable_convert f, ?_⟩
      cases havailable : f.bodyAvailable with
      | true => exact .inr ⟨rfl, body_convert havailable⟩
      | false => exact .inl (by rw [convert_of_bodyAvailable_eq_false havailable])
  rcases hg with rfl | ⟨location, rfl⟩
  · exact ⟨hbody.1, _, hbody.2, .inl rfl⟩
  · exact ⟨hbody.1, _, hbody.2, .inr ⟨location, rfl⟩⟩

/-- A function without a body gets new numbers at most. -/
theorem Left.of_bodyAvailable_eq_false {f g : Function} (h : f.Left s discovery name g)
    (hf : f.bodyAvailable = false) :
    g.body = f.body ∨ ∃ location, g.body = f.body.numbered location := by
  obtain ⟨q, rfl | ⟨havailable, -⟩, hg⟩ := h.body
  · exact hg
  · rw [hf] at havailable
    cases havailable

end Function

variable {fs : Functions} {progress : Progress} {report : Report} {fault : LoopFault}

theorem Progress.absorb_ok (h : progress.outcome = .ok report) (vs : List Verdict) :
    progress.absorb (.ok vs) =
      { outcome := .ok (report.absorb vs)
        warnings := progress.warnings ++ vs.filterMap Verdict.warning? } := by
  simp only [Progress.absorb, h]

theorem Progress.absorb_error (h : progress.outcome = .ok report) (fault : LoopFault) :
    progress.absorb (.error fault) = { progress with outcome := .error fault } := by
  simp only [Progress.absorb, h]

namespace Functions

theorem convertNext_of_error {f : Function} (h : progress.outcome = .error fault) :
    convertNext s discovery progress name f = (progress, f) := by
  simp only [convertNext, h]

theorem convertNext_of_ok {f : Function} (h : progress.outcome = .ok report) :
    convertNext s discovery progress name f =
      (progress.absorb (f.convert s discovery name).1, (f.convert s discovery name).2) := by
  simp only [convertNext, h]

/-- Nothing happens any more after a fault. -/
theorem mapAccumEntries_convertNext_of_error (h : progress.outcome = .error fault)
    (l : List (String × Function)) :
    NameMap.mapAccumEntries (convertNext s discovery) progress l = (progress, l) := by
  induction l with
  | nil => rfl
  | cons e l ih => rw [NameMap.mapAccumEntries, convertNext_of_error h, ih]

theorem mapAccumEntries_convertNext (progress : Progress) (h : progress.outcome = .ok report)
    {l : List (String × Function)}
    (hl : ∀ e ∈ l, ∃ vs, (e.2.convert s discovery e.1).1 = .ok vs) :
    (NameMap.mapAccumEntries (convertNext s discovery) progress l).1.outcome =
        .ok ((l.map fun e ↦ e.2.verdicts s discovery e.1).foldl Report.absorb report) ∧
      (NameMap.mapAccumEntries (convertNext s discovery) progress l).2 =
        l.map fun e ↦ (e.1, (e.2.convert s discovery e.1).2) := by
  induction l generalizing progress report with
  | nil => exact ⟨h, rfl⟩
  | cons e l ih =>
    obtain ⟨⟨vs, hvs⟩, hl⟩ := List.forall_mem_cons.1 hl
    obtain ⟨houtcome, hrest⟩ := ih _ (congrArg Progress.outcome (Progress.absorb_ok h vs)) hl
    rw [NameMap.mapAccumEntries, convertNext_of_ok h, hvs, List.map_cons, List.map_cons,
      List.foldl_cons, Function.verdicts_eq hvs]
    exact ⟨houtcome, by rw [hrest]⟩

theorem mapAccumEntries_convertNext_not_ok (progress : Progress)
    (h : progress.outcome = .ok report)
    {l : List (String × Function)}
    (hl : ∃ e ∈ l, ∃ fault, (e.2.convert s discovery e.1).1 = .error fault) :
    ∃ fault, (NameMap.mapAccumEntries (convertNext s discovery) progress l).1.outcome =
      .error fault := by
  induction l generalizing progress report with
  | nil =>
    obtain ⟨e, he, -⟩ := hl
    cases he
  | cons e l ih =>
    rw [NameMap.mapAccumEntries, convertNext_of_ok h]
    cases he : (e.2.convert s discovery e.1).1 with
    | error fault =>
      rw [Progress.absorb_error h, mapAccumEntries_convertNext_of_error rfl]
      exact ⟨fault, rfl⟩
    | ok vs =>
      obtain ⟨e', he', fault, hfault⟩ := hl
      rcases List.mem_cons.1 he' with rfl | he'
      · rw [he] at hfault
        cases hfault
      · exact ih _ (congrArg Progress.outcome (Progress.absorb_ok h vs)) ⟨e', he', fault, hfault⟩

theorem outcome_run : (fs.run s discovery).progress.outcome =
    (NameMap.mapAccumEntries (convertNext s discovery) {} fs.byName.entries).1.outcome := rfl

/-- A run succeeds exactly if every function is converted without a fault. -/
theorem run_ok_iff : (∃ report, (fs.run s discovery).progress.outcome = .ok report) ↔
    ∀ name f, fs.get? name = some f → ∃ vs, (f.convert s discovery name).1 = .ok vs := by
  rw [outcome_run]
  constructor
  · rintro ⟨report, hreport⟩ name f hf
    cases hconv : (f.convert s discovery name).1 with
    | ok vs => exact ⟨vs, rfl⟩
    | error fault =>
      obtain ⟨fault', hfault⟩ := mapAccumEntries_convertNext_not_ok {} rfl
        ⟨(name, f), NameMap.mem_entries_iff_get?.2 hf, fault, hconv⟩
      rw [hreport] at hfault
      cases hfault
  · intro h
    have hall : ∀ e ∈ fs.byName.entries, ∃ vs, (e.2.convert s discovery e.1).1 = .ok vs :=
      fun e he ↦ h e.1 e.2 (NameMap.mem_entries_iff_get?.1 he)
    exact ⟨_, (mapAccumEntries_convertNext {} rfl hall).1⟩

theorem exists_verdicts_of_run (h : (fs.run s discovery).progress.outcome = .ok report) :
    ∀ e ∈ fs.byName.entries, ∃ vs, (e.2.convert s discovery e.1).1 = .ok vs :=
  fun e he ↦ run_ok_iff.1 ⟨report, h⟩ e.1 e.2 (NameMap.mem_entries_iff_get?.1 he)

/-- A run that succeeds refreshes once what the conversions of the functions leave. -/
theorem functions_run (h : (fs.run s discovery).progress.outcome = .ok report) :
    (fs.run s discovery).functions =
      { fs with
        byName := fs.byName.map fun name (f : Function) ↦ (f.convert s discovery name).2
      }.refresh := by
  have hconverted : (fs.byName.mapAccum (convertNext s discovery) {}).2 =
      fs.byName.map fun name f ↦ (f.convert s discovery name).2 :=
    NameMap.ext (mapAccumEntries_convertNext {} rfl (exists_verdicts_of_run h)).2
  rw [outcome_run] at h
  rw [run, afterRun, hconverted]
  simp only [NameMap.mapAccum, h]

/-- A run that succeeds converts every function, and numbers what it has. -/
theorem byName_run (h : (fs.run s discovery).progress.outcome = .ok report) :
    (fs.run s discovery).functions.byName =
      ((fs.byName.map fun name f ↦ (f.convert s discovery name).2).mapAccum
        numberFunction 0).2 := by
  rw [functions_run h]
  rfl

/-- After a run that succeeds the functions are what their conversions leave, up to numbers. -/
theorem get?_run (h : (fs.run s discovery).progress.outcome = .ok report) {f : Function}
    (hf : fs.get? name = some f) :
    ∃ g, (fs.run s discovery).functions.get? name = some g ∧
      g.bodyAvailable = f.bodyAvailable ∧
      Renumbered (f.convert s discovery name).2.body g.body := by
  obtain ⟨location, hget⟩ := NameMap.get?_mapAccum numberFunction 0 name
    (m := fs.byName.map fun name f ↦ (f.convert s discovery name).2)
  rw [NameMap.get?_map, show fs.byName.get? name = some f from hf, ← byName_run h] at hget
  exact ⟨_, hget, f.bodyAvailable_convert, .numbered _ location⟩

theorem foldl_absorb (vss : List (List Verdict)) (report : Report) :
    vss.foldl Report.absorb report =
      { converted := report.converted ++ vss.flatMap (List.filterMap Verdict.converted?)
        skipped := report.skipped ++ vss.flatMap (List.filterMap Verdict.skipped?) } := by
  induction vss generalizing report with
  | nil => simp
  | cons vs vss ih =>
    rw [List.foldl_cons, ih, Report.absorb]
    simp only [List.flatMap_cons, List.append_assoc]

/-- The report of a run that succeeds sums up what became of the loops of all functions. -/
theorem report_eq (h : (fs.run s discovery).progress.outcome = .ok report) : report =
    { converted := fs.byName.entries.flatMap fun e ↦
        (e.2.verdicts s discovery e.1).filterMap Verdict.converted?
      skipped := fs.byName.entries.flatMap fun e ↦
        (e.2.verdicts s discovery e.1).filterMap Verdict.skipped? } := by
  have hreport := (mapAccumEntries_convertNext {} rfl (exists_verdicts_of_run h)).1
  rw [← outcome_run, h, foldl_absorb, List.flatMap_map, List.flatMap_map] at hreport
  cases hreport
  rfl

/-- The converted loops of the report are those of all functions. -/
theorem mem_converted_run_iff {sm : LoopSummary}
    (h : (fs.run s discovery).progress.outcome = .ok report) :
    sm ∈ report.converted ↔ ∃ name f, fs.get? name = some f ∧
      .converted sm ∈ f.verdicts s discovery name := by
  have hverdict : ∀ vs : List Verdict,
      sm ∈ vs.filterMap Verdict.converted? ↔ .converted sm ∈ vs := by
    intro vs
    simp only [List.mem_filterMap, Verdict.converted?_eq_some_iff, exists_eq_right]
  rw [report_eq h]
  simp only [List.mem_flatMap, hverdict, Prod.exists, NameMap.mem_entries_iff_get?]
  rfl

/-- A loop of the report was converted in the function that its summary names, and the function is
what that conversion leaves, up to numbers. -/
theorem exists_of_mem_converted {sm : LoopSummary}
    (h : (fs.run s discovery).progress.outcome = .ok report) (hsm : sm ∈ report.converted) :
    ∃ f g vs q, fs.get? sm.function = some f ∧ f.bodyAvailable = true ∧
      (fs.run s discovery).functions.get? sm.function = some g ∧
      (convertFunction s discovery sm.function).run f.body = .ok vs q ∧ .converted sm ∈ vs ∧
      Renumbered q g.body := by
  obtain ⟨name, f, hf, hverdict⟩ := (mem_converted_run_iff h).1 hsm
  obtain ⟨g, hg, -, hnumbered⟩ := get?_run h hf
  obtain ⟨vs, hvs⟩ := run_ok_iff.1 ⟨report, h⟩ name f hf
  rw [Function.verdicts_eq hvs] at hverdict
  cases havailable : f.bodyAvailable with
  | false =>
    rw [Function.convert_of_bodyAvailable_eq_false havailable] at hvs
    cases hvs
    cases hverdict
  | true =>
    obtain ⟨q, hconvert, rfl⟩ := Function.exists_run_of_convert havailable hvs
    obtain rfl := function_of_run_convertFunction hconvert hverdict
    exact ⟨f, g, vs, _, hf, havailable, hg, hconvert, hverdict, hnumbered⟩

/-! ### Whichever way a run comes out -/

/-- The numbers and calls are all that is brought up to date. -/
theorem get?_afterRun (name : String) (byName : NameMap Function) (progress : Progress) :
    (fs.afterRun byName progress).functions.get? name = byName.get? name ∨
      ∃ location, (fs.afterRun byName progress).functions.get? name =
        (byName.get? name).map fun f ↦ { f with body := f.body.numbered location } := by
  rw [afterRun]
  cases progress.outcome with
  | ok report => exact .inr (get?_refresh { fs with byName } name)
  | error fault => exact .inl rfl

theorem names_afterRun (byName : NameMap Function) (progress : Progress) :
    (fs.afterRun byName progress).functions.byName.names = byName.names := by
  rw [afterRun]
  cases progress.outcome with
  | ok report => exact NameMap.names_mapAccum numberFunction 0
  | error fault => rfl

section

variable {r : Run} (hr : r = fs.run s discovery ∨ r = fs.runConcurrently s discovery)

include hr

/-- No function is added and none is lost. -/
theorem names_of_run : r.functions.byName.names = fs.byName.names := by
  rcases hr with rfl | rfl
  · exact (names_afterRun _ _).trans (NameMap.names_mapAccum _ _)
  · exact (names_afterRun _ _).trans ((NameMap.names_map _).trans (NameMap.names_map _))

/-- A run leaves something of every function, in whichever way it goes through them. -/
theorem exists_left_of_run {f : Function} (hf : fs.get? name = some f) :
    ∃ g, r.functions.get? name = some g ∧ f.Left s discovery name g := by
  obtain ⟨byName, progress, rfl, h, hh, hname⟩ : ∃ byName progress,
      r = fs.afterRun byName progress ∧
        ∃ h, (h = f ∨ h = (f.convert s discovery name).2) ∧ byName.get? name = some h := by
    rcases hr with rfl | rfl
    · obtain ⟨progress, hget⟩ := NameMap.get?_mapAccum (m := fs.byName) (convertNext s discovery) {}
        name
      rw [show fs.byName.get? name = some f from hf, Option.map_some] at hget
      refine ⟨_, _, rfl, _, ?_, hget⟩
      rw [convertNext]
      cases progress.outcome with
      | ok report => exact .inr rfl
      | error fault => exact .inl rfl
    · refine ⟨_, _, rfl, _, .inr rfl, ?_⟩
      rw [NameMap.get?_map, NameMap.get?_map, show fs.byName.get? name = some f from hf]
      rfl
  obtain hget | ⟨location, hget⟩ := fs.get?_afterRun name byName progress
  · exact ⟨h, hget.trans hname, .of_eq hh (.inl rfl)⟩
  · rw [hname, Option.map_some] at hget
    exact ⟨_, hget, .of_eq hh (.inr ⟨location, rfl⟩)⟩

theorem exists_left_of_mem_run {g : Function} (hg : r.functions.get? name = some g) :
    ∃ f, fs.get? name = some f ∧ f.Left s discovery name g := by
  obtain ⟨f, hf⟩ : ∃ f, fs.get? name = some f := by
    rw [get?, ← NameMap.mem_names_iff, ← names_of_run hr, NameMap.mem_names_iff]
    exact ⟨g, hg⟩
  obtain ⟨g', hg', hleft⟩ := exists_left_of_run hr hf
  cases hg.symm.trans hg'
  exact ⟨f, hf, hleft⟩

end

/-- The functions of which there is only one. -/
def single (name : String) (p : Program) : Functions where
  byName := ⟨[(name, .ofBody p)], List.pairwise_singleton _ _⟩

theorem eq_of_get?_single {name' : String} {p : Program} {f : Function}
    (h : (single name p).get? name' = some f) : name' = name ∧ f = .ofBody p := by
  have hmem := NameMap.mem_entries_iff_get?.2 h
  simpa only [single, List.mem_singleton, Prod.mk.injEq] using hmem

end Functions

end LoopInduction
