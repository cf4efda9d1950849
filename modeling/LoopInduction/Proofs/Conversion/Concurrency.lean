import LoopInduction.Proofs.Conversion.Originals

/-!
# Functions one after the other, and each on its own

A run may take the functions one after the other, or convert every function on its own and then go
through the results. Both come to the same report, warnings and fault, since a result that comes
after a fault is not looked at any more (`Functions.progress_runConcurrently`). Without a fault
they leave the same functions. After a fault they differ in the functions behind that of the fault
only: one after the other these are left alone, each on its own they are converted
(`Functions.Interrupted`).

## Main definitions

* `Function.KeepsNumbers` : no instruction of a function has got another number.
* `Functions.Interrupted` : the function at which a run stops, with those before and after it.

## Main results

* `Functions.runConcurrently_agrees_run` : what the two runs have in common.
-/

namespace LoopInduction

variable {s : Setup} {discovery : Discovery} {name : String}

/-! ### One function -/

namespace Function

/-- The warnings about the loops of a function, if its conversion succeeds. -/
def warnings (s : Setup) (discovery : Discovery) (name : String) (f : Function) : List Warning :=
  (f.verdicts s discovery name).filterMap Verdict.warning?

/-- What the conversion of a function leaves, under its name. -/
def converted (s : Setup) (discovery : Discovery) (e : String × Function) : String × Function :=
  (e.1, (e.2.convert s discovery e.1).2)

/-- No instruction of `f` has got another number in `g`. -/
def KeepsNumbers (f g : Function) : Prop :=
  ∀ id ∈ f.body.order, (g.body.fetch id).locationNumber = (f.body.fetch id).locationNumber ∧
    (g.body.fetch id).targetNumber = (f.body.fetch id).targetNumber

theorem KeepsNumbers.refl (f : Function) : f.KeepsNumbers f := fun _ _ ↦ ⟨rfl, rfl⟩

/-- A conversion leaves the numbers of the instructions alone, whichever way it comes out. -/
theorem keepsNumbers_convert (s : Setup) (discovery : Discovery) (name : String) (f : Function) :
    f.KeepsNumbers (f.convert s discovery name).2 := by
  cases havailable : f.bodyAvailable with
  | false =>
    rw [convert_of_bodyAvailable_eq_false havailable]
    exact .refl f
  | true =>
    intro id hid
    have hretained := (Program.keepsOriginals_stateAfter s discovery name f.body).extension.retained
      id hid
    rw [body_convert havailable, hretained.eq_with]
    exact ⟨rfl, rfl⟩

/-- Where a discovered loop is not there, the conversion stops before anything is changed. -/
theorem convert_of_not_isLoop {f : Function} {l : Loop} (havailable : f.bodyAvailable = true)
    (hl : l ∈ discovery name f.body) (hnot : ¬ f.body.IsLoop l) :
    ∃ fault, f.convert s discovery name = (.error fault, f) := by
  obtain ⟨m, -, e, -, hrun⟩ := Edit.run_mapM_measure_error name (discovery name f.body)
    ⟨l, hl, fun h ↦ hnot (Program.exists_range_iff_isLoop.1 h)⟩
  refine ⟨⟨e, name, m.head, m.exit⟩, ?_⟩
  rw [convert, if_pos havailable, run_convertFunction_eq, hrun]

end Function

/-! ### All functions -/

namespace Functions

variable {fs : Functions} {fault : LoopFault}

/-- Going through the results of all functions comes to the same as converting one function after
the other. -/
theorem foldl_absorb_eq (progress : Progress) (l : List (String × Function)) :
    (l.map fun e ↦ (e.2.convert s discovery e.1).1).foldl Progress.absorb progress =
      (NameMap.mapAccumEntries (convertNext s discovery) progress l).1 := by
  induction l generalizing progress with
  | nil => rfl
  | cons e l ih =>
    have hnext : (convertNext s discovery progress e.1 e.2).1 =
        progress.absorb (e.2.convert s discovery e.1).1 := by
      cases h : progress.outcome with
      | error fault =>
        rw [convertNext_of_error h]
        simp only [Progress.absorb, h]
      | ok report => rw [convertNext_of_ok h]
    rw [List.map_cons, List.foldl_cons, ih, NameMap.mapAccumEntries, hnext]

theorem progress_runConcurrently (fs : Functions) (s : Setup) (discovery : Discovery) :
    (fs.runConcurrently s discovery).progress = (fs.run s discovery).progress := by
  refine Eq.trans ?_ (foldl_absorb_eq {} fs.byName.entries)
  show (List.map _ (List.map _ fs.byName.entries)).foldl Progress.absorb {} = _
  rw [List.map_map]
  rfl

/-- The run of these functions stops at `e`, with the given fault. -/
structure Interrupted (s : Setup) (discovery : Discovery) (l before : List (String × Function))
    (e : String × Function) (after : List (String × Function)) (fault : LoopFault) : Prop where
  entries : l = before ++ e :: after
  before : ∀ d ∈ before, ∃ vs, (d.2.convert s discovery d.1).1 = .ok vs
  fault : (e.2.convert s discovery e.1).1 = .error fault

/-- What a run comes to that stops: it has dealt with the functions up to that of the fault, and
its warnings are those of the functions before. -/
theorem exists_interrupted {progress : Progress} {report : Report} {l : List (String × Function)}
    (h : progress.outcome = .ok report)
    (hfault : (NameMap.mapAccumEntries (convertNext s discovery) progress l).1.outcome =
      .error fault) :
    ∃ before e after, Interrupted s discovery l before e after fault ∧
      (NameMap.mapAccumEntries (convertNext s discovery) progress l).1.warnings =
        progress.warnings ++ before.flatMap (fun d ↦ d.2.warnings s discovery d.1) ∧
      (NameMap.mapAccumEntries (convertNext s discovery) progress l).2 =
        (before ++ [e]).map (Function.converted s discovery) ++ after := by
  induction l generalizing progress report with
  | nil =>
    rw [NameMap.mapAccumEntries, h] at hfault
    cases hfault
  | cons e l ih =>
    rw [NameMap.mapAccumEntries, convertNext_of_ok h] at hfault ⊢
    simp only at hfault ⊢
    cases he : (e.2.convert s discovery e.1).1 with
    | error fault' =>
      rw [he, Progress.absorb_error h, mapAccumEntries_convertNext_of_error rfl] at hfault
      rw [Progress.absorb_error h, mapAccumEntries_convertNext_of_error rfl]
      cases hfault
      exact ⟨[], e, l, ⟨rfl, by simp, he⟩, by simp, rfl⟩
    | ok vs =>
      rw [he, Progress.absorb_ok h] at hfault
      rw [Progress.absorb_ok h]
      obtain ⟨before, d, after, hinterrupted, hwarnings, hrest⟩ := ih rfl hfault
      refine ⟨e :: before, d, after, ⟨?_, ?_, hinterrupted.fault⟩, ?_, ?_⟩
      · rw [hinterrupted.entries, List.cons_append]
      · intro d' hd'
        rcases List.mem_cons.1 hd' with rfl | hd'
        · exact ⟨vs, he⟩
        · exact hinterrupted.before d' hd'
      · rw [hwarnings, List.flatMap_cons, Function.warnings, Function.verdicts_eq he,
          List.append_assoc]
      · simp only [hrest, Function.converted, List.cons_append, List.map_cons]

theorem functions_run_of_error (h : (fs.run s discovery).progress.outcome = .error fault) :
    (fs.run s discovery).functions =
      { fs with byName := (fs.byName.mapAccum (convertNext s discovery) {}).2 } := by
  rw [outcome_run] at h
  rw [run, afterRun]
  simp only [NameMap.mapAccum, h]

theorem functions_runConcurrently_of_error
    (h : (fs.runConcurrently s discovery).progress.outcome = .error fault) :
    (fs.runConcurrently s discovery).functions =
      { fs with byName := (fs.byName.map (Function.convert s discovery)).map fun _ r ↦ r.2 } := by
  have h' : (((fs.byName.map (Function.convert s discovery)).entries.map (·.2.1)).foldl
      Progress.absorb {}).outcome = .error fault := h
  rw [runConcurrently, afterRun]
  simp only [h']

/-- Without a fault both ways of running leave the same. -/
theorem functions_runConcurrently {report : Report}
    (h : (fs.run s discovery).progress.outcome = .ok report) :
    (fs.runConcurrently s discovery).functions = (fs.run s discovery).functions := by
  have hall : ∀ e ∈ fs.byName.entries, ∃ vs, (e.2.convert s discovery e.1).1 = .ok vs :=
    fun e he ↦ run_ok_iff.1 ⟨report, h⟩ e.1 e.2 (NameMap.mem_entries_iff_get?.1 he)
  have hbyName : (fs.byName.map (Function.convert s discovery)).map (fun _ r ↦ r.2) =
      (fs.byName.mapAccum (convertNext s discovery) {}).2 := by
    refine NameMap.ext (Eq.trans ?_ (mapAccumEntries_convertNext {} rfl hall).2.symm)
    simp only [NameMap.map, List.map_map, Function.comp_def]
  have hprogress := progress_runConcurrently fs s discovery
  rw [runConcurrently, run] at hprogress ⊢
  simp only [afterRun] at hprogress ⊢
  rw [hprogress, hbyName]

section

variable {r : Run} (hr : r = fs.run s discovery ∨ r = fs.runConcurrently s discovery)

include hr

/-- A run that stops brings nothing up to date. -/
theorem calls_of_run_error (h : r.progress.outcome = .error fault) :
    r.functions.calls = fs.calls ∧ r.functions.revision = fs.revision := by
  rcases hr with rfl | rfl
  · rw [functions_run_of_error h]
    exact ⟨rfl, rfl⟩
  · rw [functions_runConcurrently_of_error h]
    exact ⟨rfl, rfl⟩

/-- What is left of a function where a run stops: the function as it was, or what its conversion
leaves. -/
theorem exists_of_run_error (h : r.progress.outcome = .error fault) {f : Function}
    (hf : fs.get? name = some f) :
    ∃ g, r.functions.get? name = some g ∧ (g = f ∨ g = (f.convert s discovery name).2) := by
  have hbyName : fs.byName.get? name = some f := hf
  rcases hr with rfl | rfl
  · obtain ⟨progress, hget⟩ := NameMap.get?_mapAccum (m := fs.byName) (convertNext s discovery) {}
      name
    rw [hbyName, Option.map_some] at hget
    rw [functions_run_of_error h]
    refine ⟨_, hget, ?_⟩
    cases hprogress : progress.outcome with
    | error fault' => exact .inl (by rw [convertNext_of_error hprogress])
    | ok report => exact .inr (by rw [convertNext_of_ok hprogress])
  · rw [functions_runConcurrently_of_error h]
    refine ⟨_, ?_, .inr rfl⟩
    rw [get?, NameMap.get?_map, NameMap.get?_map, hbyName]
    rfl

/-- A function of which a discovered loop is not there makes any run stop, and is left as it was. -/
theorem get?_of_not_isLoop {f : Function} {l : Loop} (hf : fs.get? name = some f)
    (havailable : f.bodyAvailable = true) (hl : l ∈ discovery name f.body)
    (hnot : ¬ f.body.IsLoop l) :
    (∃ fault, r.progress.outcome = .error fault) ∧ r.functions.get? name = some f := by
  obtain ⟨fault, hconvert⟩ := Function.convert_of_not_isLoop havailable hl hnot
  have hstops : ∃ fault, r.progress.outcome = .error fault := by
    have hsequential : ∃ fault, (fs.run s discovery).progress.outcome = .error fault :=
      mapAccumEntries_convertNext_not_ok {} rfl
        ⟨(name, f), NameMap.mem_entries_iff_get?.2 hf, fault, by rw [hconvert]⟩
    rcases hr with rfl | rfl
    · exact hsequential
    · rwa [progress_runConcurrently]
  obtain ⟨fault', hfault⟩ := hstops
  refine ⟨⟨fault', hfault⟩, ?_⟩
  obtain ⟨g, hg, rfl | rfl⟩ := exists_of_run_error hr hfault hf
  · exact hg
  · rwa [hconvert] at hg

end

/-- The two ways of running agree in outcome, report and warnings. Without a fault they leave the
same functions, with the same numbers and calls. A fault is that of the first function, in the order
of the names, whose conversion stops; the warnings are those of the functions before it, nothing is
brought up to date, and the functions up to it are left alike. The functions behind it are left
alone by the one and converted by the other. A function of which a discovered loop is not there is
left as it was by both. -/
theorem runConcurrently_agrees_run (fs : Functions) (s : Setup) (discovery : Discovery) :
    let sequential := fs.run s discovery
    let concurrent := fs.runConcurrently s discovery
    concurrent.progress = sequential.progress ∧
    (∀ report, sequential.progress.outcome = .ok report →
      concurrent.functions = sequential.functions) ∧
    (∀ fault, sequential.progress.outcome = .error fault → ∃ before e after,
      Interrupted s discovery fs.byName.entries before e after fault ∧
      sequential.progress.warnings = before.flatMap (fun d ↦ d.2.warnings s discovery d.1) ∧
      sequential.functions.byName.entries =
        (before ++ [e]).map (Function.converted s discovery) ++ after ∧
      concurrent.functions.byName.entries =
        (before ++ [e]).map (Function.converted s discovery) ++
          after.map (Function.converted s discovery)) ∧
    ∀ r, r = sequential ∨ r = concurrent →
      (∀ fault, r.progress.outcome = .error fault →
        (r.functions.calls = fs.calls ∧ r.functions.revision = fs.revision) ∧
        ∀ name f, fs.get? name = some f →
          ∃ g, r.functions.get? name = some g ∧ f.KeepsNumbers g) ∧
      ∀ name f l, fs.get? name = some f → f.bodyAvailable = true → l ∈ discovery name f.body →
        ¬ f.body.IsLoop l →
          (∃ fault, r.progress.outcome = .error fault) ∧ r.functions.get? name = some f := by
  intro sequential concurrent
  refine ⟨progress_runConcurrently fs s discovery, fun report ↦ functions_runConcurrently,
    fun fault hfault ↦ ?_, fun r hr ↦ ⟨fun fault hfault ↦ ?_, fun name f l ↦ ?_⟩⟩
  · have hstart : ({} : Progress).outcome = .ok {} := rfl
    obtain ⟨before, e, after, hinterrupted, hwarnings, hentries⟩ :=
      exists_interrupted hstart (outcome_run.symm.trans hfault)
    have hconcurrent : concurrent.functions.byName.entries =
        fs.byName.entries.map (Function.converted s discovery) := by
      have hfault' : concurrent.progress.outcome = .error fault := by
        rw [progress_runConcurrently]
        exact hfault
      rw [functions_runConcurrently_of_error hfault']
      simp only [NameMap.map, List.map_map, Function.comp_def]
      rfl
    refine ⟨before, e, after, hinterrupted, hwarnings, ?_, ?_⟩
    · rw [functions_run_of_error hfault]
      exact hentries
    · rw [hconcurrent, hinterrupted.entries, ← List.map_append, List.append_assoc]
      rfl
  · refine ⟨calls_of_run_error hr hfault, fun name f hf ↦ ?_⟩
    obtain ⟨g, hg, rfl | rfl⟩ := exists_of_run_error hr hfault hf
    · exact ⟨g, hg, .refl g⟩
    · exact ⟨_, hg, Function.keepsNumbers_convert s discovery name f⟩
  · exact get?_of_not_isLoop hr

/-- Three functions alike. -/
def threeFunctions : Functions where
  byName := .ofList [("a", .ofBody nestedLoops), ("b", .ofBody nestedLoops),
    ("c", .ofBody nestedLoops)]

/-- The loops of the second function are not as they should be. -/
def threeFunctions.loops : Discovery := fun name _ ↦
  if name = "b" then nestedLoops.brokenLoops else nestedLoops.loops

/-- The run stops at the second function. The third one is converted where each function is run on
its own, and left alone otherwise. -/
theorem runConcurrently_agrees_run_threeFunctions :
    ∃ fault before e after,
      (threeFunctions.run { config := .full } threeFunctions.loops).progress.outcome =
        .error fault ∧
      (threeFunctions.runConcurrently { config := .full } threeFunctions.loops).progress.outcome =
        .error fault ∧
      Interrupted { config := .full } threeFunctions.loops threeFunctions.byName.entries before e
        after fault ∧ fault.function = "b" ∧
      ((threeFunctions.run { config := .full } threeFunctions.loops).functions.get? "c").map
        (·.body.size) = some 7 ∧
      ((threeFunctions.runConcurrently { config := .full } threeFunctions.loops).functions.get?
        "c").map (·.body.size) = some 20 := by
  obtain ⟨hprogress, -, hstops, -⟩ :=
    runConcurrently_agrees_run threeFunctions { config := .full } threeFunctions.loops
  have hfunction : (threeFunctions.run { config := .full }
      threeFunctions.loops).progress.outcome.mapError (·.function) = .error "b" := by
    decide +kernel
  have hsequential : ((threeFunctions.run { config := .full } threeFunctions.loops).functions.get?
    "c").map (·.body.size) = some 7 := by decide +kernel
  have hconcurrent : ((threeFunctions.runConcurrently { config := .full }
    threeFunctions.loops).functions.get? "c").map (·.body.size) = some 20 := by decide +kernel
  cases houtcome : (threeFunctions.run { config := .full }
      threeFunctions.loops).progress.outcome with
  | ok report =>
    rw [houtcome] at hfunction
    cases hfunction
  | error fault =>
    obtain ⟨before, e, after, hinterrupted, -⟩ := hstops fault houtcome
    rw [houtcome] at hfunction
    exact ⟨fault, before, e, after, rfl, by rw [hprogress, houtcome], hinterrupted,
      Except.error.inj hfunction, hsequential, hconcurrent⟩

end Functions

end LoopInduction
