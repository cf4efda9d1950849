import LoopInduction.Conversion.Run
import LoopInduction.Proofs.Conversion.Loop

/-!
# Converting the loops of a function

The loops are dealt with one after the other, each in the program that those before it left. What
holds of all of them is shown by an invariant of the program and of the loops that are still to
come: `EStateM.run_mapM_of_invariant` if every step succeeds, `EStateM.run_mapM_error` if one does
not, and `EStateM.invariant_of_run_mapM` along a run that is known to succeed. The order in which
the loops come is a permutation of the order of discovery (`Program.turns_perm`) by decreasing
length (`Program.pairwise_turns`).

## Main definitions

* `Dealt` : what it comes to if a loop is dealt with and no fault arises.
* `Program.span` : the length of a loop.
* `Program.turns` : the loops in the order in which they are dealt with.
-/

namespace LoopInduction

/-! ### One step after the other -/

namespace EStateM

variable {α β ε σ : Type} {f : α → EStateM ε σ β}

theorem run_mapM_cons (a : α) (l : List α) (p : σ) :
    ((a :: l).mapM f).run p = match (f a).run p with
      | .ok b q => match (l.mapM f).run q with
        | .ok bs r => .ok (b :: bs) r
        | .error e r => .error e r
      | .error e q => .error e q := by
  rw [List.mapM_cons, EStateM.run_bind]
  cases (f a).run p with
  | error e q => rfl
  | ok b q =>
    simp only [EStateM.run_bind]
    cases (l.mapM f).run q <;> rfl

/-- An invariant under which every step succeeds and that every step keeps. -/
theorem run_mapM_of_invariant {I : List α → σ → Prop}
    (step : ∀ a l p, I (a :: l) p → ∃ b q, (f a).run p = .ok b q ∧ I l q) {l : List α} {p : σ}
    (h : I l p) : ∃ bs q, (l.mapM f).run p = .ok bs q ∧ I [] q := by
  induction l generalizing p with
  | nil => exact ⟨[], p, rfl, h⟩
  | cons a l ih =>
    obtain ⟨b, q, hrun, hq⟩ := step a l p h
    obtain ⟨bs, r, hrun', hr⟩ := ih hq
    exact ⟨b :: bs, r, by rw [run_mapM_cons, hrun]; simp only [hrun'], hr⟩

/-- An invariant under which the good steps succeed, and keep it, and all others fail. -/
theorem run_mapM_error {I : List α → σ → Prop} {good : α → Prop}
    (step : ∀ a l p, I (a :: l) p → good a → ∃ b q, (f a).run p = .ok b q ∧ I l q)
    (stop : ∀ a l p, I (a :: l) p → ¬ good a → ∃ e q, (f a).run p = .error e q)
    {l : List α} {p : σ} (h : I l p) (hbad : ∃ a ∈ l, ¬ good a) :
    ∃ e q, (l.mapM f).run p = .error e q := by
  induction l generalizing p with
  | nil =>
    obtain ⟨a, ha, -⟩ := hbad
    cases ha
  | cons a l ih =>
    by_cases hgood : good a
    · obtain ⟨b, q, hrun, hq⟩ := step a l p h hgood
      have hbad' : ∃ a' ∈ l, ¬ good a' := by
        obtain ⟨a', ha', hbad'⟩ := hbad
        rcases List.mem_cons.1 ha' with rfl | ha'
        · exact absurd hgood hbad'
        · exact ⟨a', ha', hbad'⟩
      obtain ⟨e, r, hrun'⟩ := ih hq hbad'
      exact ⟨e, r, by rw [run_mapM_cons, hrun]; simp only [hrun']⟩
    · obtain ⟨e, q, hrun⟩ := stop a l p h hgood
      exact ⟨e, q, by rw [run_mapM_cons, hrun]⟩

/-- An invariant that every step that succeeds keeps, of what was done and what is to come. -/
theorem invariant_of_run_mapM {I : List (α × β) → List α → σ → Prop}
    (step : ∀ done a l p b q, I done (a :: l) p → (f a).run p = .ok b q →
      I (done ++ [(a, b)]) l q) {done : List (α × β)} {l : List α} {p q : σ} {bs : List β}
    (h : I done l p) (hrun : (l.mapM f).run p = .ok bs q) :
    ∃ pairs, pairs.map Prod.fst = l ∧ pairs.map Prod.snd = bs ∧ I (done ++ pairs) [] q := by
  induction l generalizing p done bs with
  | nil =>
    cases hrun
    exact ⟨[], rfl, rfl, by simpa using h⟩
  | cons a l ih =>
    rw [run_mapM_cons] at hrun
    cases hstep : (f a).run p with
    | error e r =>
      rw [hstep] at hrun
      cases hrun
    | ok b r =>
      rw [hstep] at hrun
      simp only at hrun
      cases hrest : (l.mapM f).run r with
      | error e t =>
        rw [hrest] at hrun
        cases hrun
      | ok bs' t =>
        rw [hrest] at hrun
        cases hrun
        obtain ⟨pairs, hfst, hsnd, hI⟩ := ih (step done a l p b r h hstep) hrest
        rw [List.append_assoc] at hI
        exact ⟨(a, b) :: pairs, by rw [List.map_cons, hfst], by rw [List.map_cons, hsnd], hI⟩

end EStateM

/-! ### The order of the loops -/

theorem insertBySize_perm (x : Nat × Loop) (l : List (Nat × Loop)) :
    (insertBySize x l).Perm (x :: l) := by
  induction l with
  | nil => exact .refl _
  | cons y l ih =>
    rw [insertBySize]
    split
    · exact .refl _
    · exact (ih.cons y).trans (.swap x y l)

theorem foldr_insertBySize_perm (l : List (Nat × Loop)) :
    (l.foldr insertBySize []).Perm l := by
  induction l with
  | nil => exact .refl _
  | cons x l ih => exact (insertBySize_perm x _).trans (ih.cons x)

theorem pairwise_insertBySize {x : Nat × Loop} {l : List (Nat × Loop)}
    (h : l.Pairwise fun y z ↦ z.1 ≤ y.1) : (insertBySize x l).Pairwise fun y z ↦ z.1 ≤ y.1 := by
  induction l with
  | nil => exact List.pairwise_singleton _ _
  | cons y l ih =>
    obtain ⟨hy, hl⟩ := List.pairwise_cons.1 h
    rw [insertBySize]
    split
    · next hle =>
      refine List.pairwise_cons.2 ⟨fun z hz ↦ ?_, h⟩
      rcases List.mem_cons.1 hz with rfl | hz
      · exact hle
      · exact (hy z hz).trans hle
    · next hlt =>
      refine List.pairwise_cons.2 ⟨fun z hz ↦ ?_, ih hl⟩
      rcases List.mem_cons.1 ((insertBySize_perm x l).subset hz) with rfl | hz
      · omega
      · exact hy z hz

theorem pairwise_foldr_insertBySize (l : List (Nat × Loop)) :
    (l.foldr insertBySize []).Pairwise fun y z ↦ z.1 ≤ y.1 := by
  induction l with
  | nil => exact .nil
  | cons x l ih => exact pairwise_insertBySize ih

namespace Program

/-- The length of a loop. -/
def span (p : Program) (l : Loop) : Nat :=
  p.position l.exit - p.position l.head

/-- Loops in the order in which they are dealt with. -/
def turns (p : Program) (loops : List Loop) : List Loop :=
  longestFirst (loops.map fun l ↦ (p.span l, l))

variable {p : Program} {loops : List Loop}

theorem turns_perm (p : Program) (loops : List Loop) : (p.turns loops).Perm loops := by
  have h := (foldr_insertBySize_perm (loops.map fun l ↦ (p.span l, l))).map Prod.snd
  rwa [List.map_map, Function.comp_def, List.map_id'] at h

theorem pairwise_turns (p : Program) (loops : List Loop) :
    (p.turns loops).Pairwise fun l m ↦ p.span m ≤ p.span l := by
  have hmem : ∀ x ∈ (loops.map fun l ↦ (p.span l, l)).foldr insertBySize [], x.1 = p.span x.2 := by
    intro x hx
    obtain ⟨l, -, rfl⟩ := List.mem_map.1 ((foldr_insertBySize_perm _).subset hx)
    rfl
  rw [turns, longestFirst, List.pairwise_map]
  refine (pairwise_foldr_insertBySize _).imp_of_mem fun {x y} hx hy hxy ↦ ?_
  rwa [← hmem x hx, ← hmem y hy]

end Program

/-! ### The loops of a function -/

variable {s : Setup} {discovery : Discovery} {name : String} {p : Program} {l : Loop}
  {body : List InstrId} {condition : LoopCondition}

theorem Edit.run_atLoop (name : String) (l : Loop) (e : Edit α) (p : Program) :
    (atLoop name l e).run p = match e.run p with
      | .ok a q => .ok a q
      | .error f q => .error ⟨f, name, l.head, l.exit⟩ q := by
  rw [atLoop, EStateM.run_adaptExcept]
  cases e.run p <;> rfl

theorem Edit.run_of_run_atLoop {e : Edit α} {a : α} {q : Program}
    (h : (atLoop name l e).run p = .ok a q) : e.run p = .ok a q := by
  rw [run_atLoop] at h
  cases he : e.run p with
  | error f r =>
    rw [he] at h
    cases h
  | ok b r =>
    rw [he] at h
    cases h
    rfl

/-- A loop without a condition changes nothing. -/
theorem Edit.run_convertLoop_of_none (s : Setup) (name : String)
    (hrange : p.range l.head l.exit = .ok body)
    (h : body.find? (fun id ↦ (p.fetch id).isConditionalJump) = none) :
    ∃ sm w, (convertLoop s name l).run p = .ok (.skipped sm w) p := by
  have hcond : p.loopCondition l.head l.exit = .ok none := by
    rw [Program.loopCondition_eq hrange, h, Option.map_none]
  rw [convertLoop, EStateM.run_bind, run_ask_ok hcond]
  simp only [skipLoop, EStateM.run_bind]
  rw [run_fetch (Program.get?_eq_some_fetch (Program.range_eq_ok hrange).1)]
  exact ⟨_, _, rfl⟩

/-- A loop with a condition is converted, if nothing goes wrong. -/
theorem Edit.run_convertLoop (h : p.HasCondition l body condition) :
    (convertLoop s name l).run p = match (convertWith s name l condition).run p with
      | .ok sm q => .ok (.converted sm) q
      | .error e q => .error e q := by
  rw [convertLoop, EStateM.run_bind, run_ask_ok (Program.loopCondition_eq_some h)]
  simp only
  rw [run_map]
  cases (convertWith s name l condition).run p <;> rfl

/-- A loop without a condition is left as it is, one with a condition is converted. -/
theorem Edit.cases_of_run_convertLoop {v : Verdict} {q : Program}
    (hrun : (convertLoop s name l).run p = .ok v q) :
    (p.loopCondition l.head l.exit = .ok none ∧ (skipLoop name l).run p = .ok v q) ∨
      ∃ condition sm, p.loopCondition l.head l.exit = .ok (some condition) ∧ v = .converted sm ∧
        (convertWith s name l condition).run p = .ok sm q := by
  rw [convertLoop] at hrun
  obtain ⟨found, r, hfound, hrun⟩ := EStateM.exists_of_run_bind hrun
  obtain ⟨hfound, rfl⟩ := eq_of_run_ask hfound
  cases found with
  | none => exact .inl ⟨hfound, hrun⟩
  | some condition =>
    simp only [run_map] at hrun
    cases hconvert : (convertWith s name l condition).run r with
    | error f t =>
      rw [hconvert] at hrun
      cases hrun
    | ok sm t =>
      rw [hconvert] at hrun
      cases hrun
      exact .inr ⟨condition, sm, hfound, rfl, hconvert⟩

theorem Edit.eq_of_run_skipLoop {v : Verdict} {q : Program}
    (hrun : (skipLoop name l).run p = .ok v q) :
    q = p ∧ v = .skipped { function := name, head := l.head, exit := l.exit }
      { message := Warning.noCondition, location := (p.fetch l.head).location, function := name,
        listing := l.text p } := by
  obtain ⟨h, _, hfetch, hrest₁⟩ := EStateM.exists_of_run_bind hrun
  obtain ⟨rfl, rfl⟩ := eq_of_run_fetch hfetch
  obtain ⟨_, _, hget, hrest₂⟩ := EStateM.exists_of_run_bind hrest₁
  cases hget
  cases hrest₂
  exact ⟨rfl, rfl⟩

/-- Only a loop that has no condition is skipped. -/
theorem Edit.loopCondition_of_run_skipped {sm : LoopSummary} {q : Program} {w : Warning}
    (hrun : (convertLoop s name l).run p = .ok (.skipped sm w) q) :
    p.loopCondition l.head l.exit = .ok none := by
  obtain ⟨hnone, -⟩ | ⟨_, _, -, hv, -⟩ := cases_of_run_convertLoop hrun
  · exact hnone
  · cases hv

/-- A loop that is skipped changes nothing, and its summary and its warning name the function and
the loop. -/
theorem Edit.eq_of_run_skipped {sm : LoopSummary} {q : Program} {w : Warning}
    (hrun : (convertLoop s name l).run p = .ok (.skipped sm w) q) :
    q = p ∧ sm = { function := name, head := l.head, exit := l.exit } ∧
      w = { message := Warning.noCondition, location := (p.fetch l.head).location,
            function := name, listing := l.text p } := by
  obtain ⟨-, hskip⟩ | ⟨_, _, -, hv, -⟩ := cases_of_run_convertLoop hrun
  · obtain ⟨rfl, hv⟩ := eq_of_run_skipLoop hskip
    cases hv
    exact ⟨rfl, rfl, rfl⟩
  · cases hv

/-- Only a loop that has a condition is converted. -/
theorem Edit.exists_of_run_convertLoop {sm : LoopSummary} {q : Program}
    (hrun : (convertLoop s name l).run p = .ok (.converted sm) q) :
    ∃ condition, p.loopCondition l.head l.exit = .ok (some condition) ∧
      (convertWith s name l condition).run p = .ok sm q := by
  obtain ⟨-, hskip⟩ | ⟨condition, _, hcond, hv, hconvert⟩ := cases_of_run_convertLoop hrun
  · cases (eq_of_run_skipLoop hskip).2
  · cases hv
    exact ⟨condition, hcond, hconvert⟩

/-- The summary of a converted loop names the function, the loop and the jump of the condition. -/
theorem Edit.names_of_run_convertWith {sm : LoopSummary} {q : Program}
    (hrun : (convertWith s name l condition).run p = .ok sm q) :
    sm.function = name ∧ sm.head = l.head ∧ sm.exit = l.exit ∧
      sm.branch = some condition.branch := by
  obtain ⟨_, _, _, _, _, -, -, -, -, rfl⟩ := exists_of_run_convertWith hrun
  exact ⟨rfl, rfl, rfl, rfl⟩

/-- How a loop is dealt with where no fault arises: without a condition nothing happens, otherwise
all passes are run. -/
inductive Dealt (s : Setup) (name : String) (l : Loop) (p : Program) : Verdict → Program → Prop
  | skipped {sm : LoopSummary} {w : Warning} : Dealt s name l p (.skipped sm w) p
  | converted {body : List InstrId} {condition : LoopCondition} {points : Option IterationPoints}
      {assumption : Option InstrId} {p₁ p₂ p₃ q : Program} :
      p.HasCondition l body condition →
      Converted s l body condition points assumption p p₁ p₂ p₃ q →
      Dealt s name l p (.converted
        { function := name, head := l.head, exit := l.exit, branch := some condition.branch,
          points := points, assumption := assumption }) q

/-- A loop that is ready is dealt with without a fault, if it can be converted in case it has a
condition. -/
theorem Edit.run_atLoop_convertLoop (name : String) (hrange : p.range l.head l.exit = .ok body)
    (hready : p.Ready s l body)
    (hconv : ∀ condition, p.HasCondition l body condition → p.Convertible s l condition) :
    ∃ v q, (atLoop name l (convertLoop s name l)).run p = .ok v q ∧ Dealt s name l p v q := by
  rw [run_atLoop]
  cases hbranch : body.find? fun id ↦ (p.fetch id).isConditionalJump with
  | none =>
    obtain ⟨sm, w, hrun⟩ := run_convertLoop_of_none s name hrange hbranch
    exact ⟨_, p, by rw [hrun], .skipped⟩
  | some branch =>
    have hcond := Program.hasCondition_conditionAt hrange hbranch
    obtain ⟨points, assumption, p₁, p₂, p₃, q, hrun, h⟩ :=
      run_convertWith name hcond hready (hconv _ hcond)
    exact ⟨_, q, by rw [run_convertLoop hcond, hrun], .converted hcond h⟩

/-- A loop that has a condition and cannot be converted makes a fault. -/
theorem Edit.run_atLoop_convertLoop_error (name : String) (hcond : p.HasCondition l body condition)
    (hready : p.Ready s l body) (hconv : ¬ p.Convertible s l condition) :
    ∃ e q, (atLoop name l (convertLoop s name l)).run p = .error e q := by
  obtain ⟨e, q, hrun⟩ := run_convertWith_error name hcond hready hconv
  exact ⟨_, q, by rw [run_atLoop, run_convertLoop hcond, hrun]⟩

/-- The length of one loop, as the conversion of a function takes it. -/
def Edit.measure (name : String) (l : Loop) : FunctionEdit (Nat × Loop) := do
  let body ← atLoop name l (.ask (·.range l.head l.exit))
  return (body.length, l)

theorem Edit.run_measure (h : p.range l.head l.exit = .ok body) :
    (measure name l).run p = .ok (p.span l, l) p := by
  rw [measure, EStateM.run_bind, run_atLoop, run_ask_ok h, Program.span,
    Program.length_of_range h, Nat.add_sub_cancel_left]
  rfl

theorem Edit.run_measure_error (name : String) {e : Fault} (h : p.range l.head l.exit = .error e) :
    (measure name l).run p = .error ⟨e, name, l.head, l.exit⟩ p := by
  rw [measure, EStateM.run_bind, run_atLoop, run_ask_error h]

/-- Measuring stops at the first loop that is not there. -/
theorem Edit.run_mapM_measure_error (name : String) (loops : List Loop)
    (h : ∃ l ∈ loops, ¬ ∃ body, p.range l.head l.exit = .ok body) :
    ∃ l ∈ loops, ∃ e, p.range l.head l.exit = .error e ∧
      (loops.mapM (measure name)).run p = .error ⟨e, name, l.head, l.exit⟩ p := by
  induction loops with
  | nil =>
    obtain ⟨l, hl, -⟩ := h
    cases hl
  | cons l loops ih =>
    cases hrange : p.range l.head l.exit with
    | error e =>
      exact ⟨l, List.mem_cons_self, e, hrange,
        by rw [EStateM.run_mapM_cons, run_measure_error name hrange]⟩
    | ok body =>
      obtain ⟨m, hm, hnot⟩ := h
      rcases List.mem_cons.1 hm with rfl | hm
      · exact absurd ⟨body, hrange⟩ hnot
      · obtain ⟨m', hm', e, he, hrun⟩ := ih ⟨m, hm, hnot⟩
        refine ⟨m', List.mem_cons_of_mem _ hm', e, he, ?_⟩
        rw [EStateM.run_mapM_cons, run_measure hrange]
        simp only
        rw [hrun]

/-- The loops are measured first, and then converted. -/
theorem run_convertFunction_eq : (convertFunction s discovery name).run p =
    match ((discovery name p).mapM (Edit.measure name)).run p with
    | .ok measured q => ((longestFirst measured).mapM fun l ↦
        Edit.atLoop name l (Edit.convertLoop s name l)).run q
    | .error e q => .error e q := by
  rw [convertFunction, EStateM.run_bind, EStateM.run_get]
  show EStateM.run ((discovery name p).mapM (Edit.measure name) >>= fun measured ↦
    (longestFirst measured).mapM fun l ↦
      Edit.atLoop name l (Edit.convertLoop s name l)) p = _
  rw [EStateM.run_bind]
  cases ((discovery name p).mapM (Edit.measure name)).run p <;> rfl

/-- Where all loops are there, they are converted in their order. -/
theorem run_convertFunction
    (h : ∀ l ∈ discovery name p, ∃ body, p.range l.head l.exit = .ok body) :
    (convertFunction s discovery name).run p =
      ((p.turns (discovery name p)).mapM fun l ↦
        Edit.atLoop name l (Edit.convertLoop s name l)).run p := by
  have hmeasured : ∀ loops : List Loop, (∀ l ∈ loops, ∃ body, p.range l.head l.exit = .ok body) →
      (loops.mapM (Edit.measure name)).run p = .ok (loops.map fun l ↦ (p.span l, l)) p := by
    intro loops hloops
    induction loops with
    | nil => rfl
    | cons l loops ih =>
      obtain ⟨body, hbody⟩ := hloops l List.mem_cons_self
      rw [EStateM.run_mapM_cons, Edit.run_measure hbody]
      simp only
      rw [ih fun l' hl' ↦ hloops l' (List.mem_cons_of_mem _ hl')]
      rfl
  rw [run_convertFunction_eq, hmeasured _ h]
  rfl

/-- A function is converted only if all its loops are there. -/
theorem exists_range_of_run_convertFunction {vs : List Verdict} {q : Program}
    (h : (convertFunction s discovery name).run p = .ok vs q) :
    ∀ l ∈ discovery name p, ∃ body, p.range l.head l.exit = .ok body := by
  by_contra hcon
  obtain ⟨l, -, e, -, herror⟩ := Edit.run_mapM_measure_error name (discovery name p)
    (by simpa using hcon)
  rw [run_convertFunction_eq, herror] at h
  cases h

/-- The summary of a converted loop names the function that the loop was converted in. -/
theorem function_of_run_convertFunction {vs : List Verdict} {q : Program} {sm : LoopSummary}
    (h : (convertFunction s discovery name).run p = .ok vs q) (hsm : .converted sm ∈ vs) :
    sm.function = name := by
  rw [run_convertFunction (exists_range_of_run_convertFunction h)] at h
  obtain ⟨pairs, -, hsnd, hall⟩ := EStateM.invariant_of_run_mapM
    (I := fun done _ _ ↦ ∀ e ∈ done, ∀ sm, e.2 = .converted sm → sm.function = name)
    (fun done l _ r v q hdone hstep ↦ by
      intro e he sm hsm
      rcases List.mem_append.1 he with he | he
      · exact hdone e he sm hsm
      · cases List.mem_singleton.1 he
        subst hsm
        obtain ⟨condition, -, hconvert⟩ :=
          Edit.exists_of_run_convertLoop (Edit.run_of_run_atLoop hstep)
        exact (Edit.names_of_run_convertWith hconvert).1)
    (fun e he ↦ absurd he List.not_mem_nil) h
  rw [← hsnd] at hsm
  obtain ⟨e, he, hv⟩ := List.mem_map.1 hsm
  exact hall e he sm hv

end LoopInduction
