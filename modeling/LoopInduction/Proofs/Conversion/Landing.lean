import LoopInduction.Proofs.Conversion.ControlFlow
import LoopInduction.Proofs.Conversion.Leaving
import Mathlib.Data.List.Infix

/-!
# Where the assumption behind a loop leads

A jump out of a loop is redirected to the assumption that is written behind the exit. From there
control passes the marker that the unwinding left, and comes to what stands right behind the exit in
the input, and to nothing else of the input (`Functions.run_scaffoldSteps`). So the old target of
the jump is reached exactly if it stands there. If it stands further on, what the jump passed over
is run; if it stands in front of the loop, it is not reached this way at all.

## Main definitions

* `Program.ScaffoldStep` : a step of control away from scaffolding.
* `Program.RunsInto` : a stretch of scaffolding that leads to the instruction behind it only.

## Main results

* `Functions.run_scaffoldSteps` : what is reached from the assumption behind a loop.
-/

namespace LoopInduction

namespace Program

variable {p q : Program} {a b c x : InstrId} {ids : List InstrId}

/-- Control steps away from scaffolding, by a fall or by a jump. -/
def ScaffoldStep (p : Program) (a b : InstrId) : Prop :=
  (p.fetch a).isScaffold = true ∧ p.Edge a b

/-- The instructions `ids` are scaffolding right in front of `b`, and do not jump but to `b`. -/
structure RunsInto (p : Program) (ids : List InstrId) (b : InstrId) : Prop where
  isInfix : ids ++ [b] <:+: p.order
  isScaffold : ∀ c ∈ ids, (p.fetch c).isScaffold = true
  eq_of_mem_targets : ∀ c ∈ ids, ∀ t ∈ (p.fetch c).targets, t = b
  mem_targets : ∀ c ∈ ids, (p.fetch c).isAlwaysTaken = true → b ∈ (p.fetch c).targets

namespace RunsInto

instance : Decidable (p.RunsInto ids b) :=
  decidable_of_iff (ids ++ [b] <:+: p.order ∧ (∀ c ∈ ids, (p.fetch c).isScaffold = true) ∧
      (∀ c ∈ ids, ∀ t ∈ (p.fetch c).targets, t = b) ∧
      ∀ c ∈ ids, (p.fetch c).isAlwaysTaken = true → b ∈ (p.fetch c).targets)
    ⟨fun ⟨hi, hs, he, ht⟩ ↦ ⟨hi, hs, he, ht⟩,
      fun h ↦ ⟨h.isInfix, h.isScaffold, h.eq_of_mem_targets, h.mem_targets⟩⟩

theorem tail (h : p.RunsInto (c :: ids) b) : p.RunsInto ids b where
  isInfix := (List.suffix_cons c (ids ++ [b])).isInfix.trans h.isInfix
  isScaffold d hd := h.isScaffold d (List.mem_cons_of_mem c hd)
  eq_of_mem_targets d hd := h.eq_of_mem_targets d (List.mem_cons_of_mem c hd)
  mem_targets d hd := h.mem_targets d (List.mem_cons_of_mem c hd)

theorem next?_head (h : p.RunsInto (c :: ids) b) : p.next? c = (ids ++ [b]).head? := by
  obtain ⟨s, t, hst⟩ := h.isInfix
  have horder : p.order = s ++ c :: (ids ++ [b] ++ t) := by
    rw [← hst]
    simp only [List.append_assoc, List.cons_append]
  rw [next?_of_order horder]
  cases ids <;> rfl

/-- From the first instruction control can step to the next one or to the end. -/
theorem step_head (h : p.RunsInto (c :: ids) b) :
    p.ScaffoldStep c b ∨ ∃ d ids', ids = d :: ids' ∧ p.ScaffoldStep c d := by
  have hscaffold := h.isScaffold c List.mem_cons_self
  cases htaken : (p.fetch c).isAlwaysTaken with
  | true =>
    have hgoto : (p.fetch c).isGoto = true := (Bool.and_eq_true_iff.1 htaken).1
    exact .inl ⟨hscaffold, .inl ⟨hgoto, h.mem_targets c List.mem_cons_self htaken⟩⟩
  | false =>
    have hnext := h.next?_head
    cases ids with
    | nil => exact .inl ⟨hscaffold, .inr ⟨htaken, hnext⟩⟩
    | cons d ids => exact .inr ⟨d, ids, rfl, hscaffold, .inr ⟨htaken, hnext⟩⟩

/-- From the first instruction control can step nowhere else. -/
theorem of_step_head (h : p.RunsInto (c :: ids) b) (hstep : p.ScaffoldStep c x) :
    x = b ∨ ∃ ids', ids = x :: ids' := by
  rcases hstep.2 with ⟨-, ht⟩ | ⟨-, hnext⟩
  · exact .inl (h.eq_of_mem_targets c List.mem_cons_self x ht)
  · rw [h.next?_head] at hnext
    cases ids with
    | nil => exact .inl (Option.some.inj hnext).symm
    | cons d ids =>
      obtain rfl : d = x := Option.some.inj hnext
      exact .inr ⟨ids, rfl⟩

/-- The first instruction leads to the end. -/
theorem reflTransGen (h : p.RunsInto (c :: ids) b) :
    Relation.ReflTransGen p.ScaffoldStep c b := by
  induction ids generalizing c with
  | nil =>
    rcases h.step_head with hstep | ⟨d, ids', hids, -⟩
    · exact .single hstep
    · cases hids
  | cons d ids ih =>
    rcases h.step_head with hstep | ⟨d', ids', hids, hstep⟩
    · exact .single hstep
    · cases hids
      exact .head hstep (ih h.tail)

/-- The first instruction leads to nothing else that is no scaffolding. -/
theorem eq_of_reflTransGen (h : p.RunsInto (c :: ids) b) (hb : (p.fetch b).isScaffold = false)
    (hx : (p.fetch x).isScaffold = false) (hreach : Relation.ReflTransGen p.ScaffoldStep c x) :
    x = b := by
  have hend : Relation.ReflTransGen p.ScaffoldStep b x → x = b := by
    intro hbx
    rcases hbx.cases_head with rfl | ⟨y, ⟨hs, -⟩, -⟩
    · rfl
    · rw [hb] at hs
      cases hs
  induction ids generalizing c with
  | nil =>
    rcases hreach.cases_head with rfl | ⟨y, hstep, hyx⟩
    · rw [h.isScaffold c List.mem_cons_self] at hx
      cases hx
    · rcases h.of_step_head hstep with rfl | ⟨ids', hids⟩
      · exact hend hyx
      · cases hids
  | cons d ids ih =>
    rcases hreach.cases_head with rfl | ⟨y, hstep, hyx⟩
    · rw [h.isScaffold c List.mem_cons_self] at hx
      cases hx
    · rcases h.of_step_head hstep with rfl | ⟨ids', hids⟩
      · exact hend hyx
      · cases hids
        exact ih h.tail hyx

/-- What is no scaffolding is reached from the first instruction exactly if it is the end. -/
theorem reflTransGen_iff (h : p.RunsInto (c :: ids) b) (hb : (p.fetch b).isScaffold = false)
    (hx : (p.fetch x).isScaffold = false) :
    Relation.ReflTransGen p.ScaffoldStep c x ↔ b = x := by
  constructor
  · intro hreach
    exact (h.eq_of_reflTransGen hb hx hreach).symm
  · rintro rfl
    exact h.reflTransGen

/-- Scaffolding without a target that falls to the stretch makes it longer. -/
theorem cons (h : p.RunsInto ids b) (hpiece : c :: ids ++ [b] <:+: p.order)
    (hscaffold : (p.fetch c).isScaffold = true) (htargets : (p.fetch c).targets = [])
    (htaken : (p.fetch c).isAlwaysTaken = false) : p.RunsInto (c :: ids) b where
  isInfix := hpiece
  isScaffold := List.forall_mem_cons.2 ⟨hscaffold, h.isScaffold⟩
  eq_of_mem_targets := List.forall_mem_cons.2 ⟨by simp [htargets], h.eq_of_mem_targets⟩
  mem_targets := List.forall_mem_cons.2 ⟨by simp [htaken], h.mem_targets⟩

/-- A stretch that stays in one piece, with its targets, runs into the same instruction. -/
theorem of_isInfix (h : p.RunsInto ids b) (hids : ids ++ [b] <:+: q.order)
    (hretained : ∀ c ∈ ids, (p.fetch c).Retained (q.fetch c))
    (htargets : ∀ c ∈ ids, (q.fetch c).targets = (p.fetch c).targets) : q.RunsInto ids b where
  isInfix := hids
  isScaffold c hc := (hretained c hc).isScaffold_eq.trans (h.isScaffold c hc)
  eq_of_mem_targets c hc := htargets c hc ▸ h.eq_of_mem_targets c hc
  mem_targets c hc htaken := by
    rw [(hretained c hc).isAlwaysTaken_eq] at htaken
    exact htargets c hc ▸ h.mem_targets c hc htaken

end RunsInto

end Program

open Program

variable {p₀ p q p₁ p₂ p₃ : Program} {s : Setup} {l : Loop} {condition : LoopCondition}
  {body : List InstrId} {points : Option IterationPoints} {assumption : Option InstrId}
  {name : String}

/-- Behind the exit of an unwound loop scaffolding runs into what stood there. -/
theorem Unwound.runsInto {exit behind marker : InstrId} {builder : GuardBuilder}
    {copy : InstrId → InstrId} {jump : Option InstrId}
    (h : Unwound p q body exit behind builder copy jump marker) :
    q.RunsInto (jump.toList ++ [marker]) behind := by
  have hfetch : ∀ c ∈ jump.toList ++ [marker],
      q.fetch c = (Instruction.goto behind builder.truth).scaffoldAt (p.fetch exit) ∨
        q.fetch c = Instruction.skip.scaffoldAt (p.fetch exit) := by
    intro c hc
    rw [List.mem_append, Option.mem_toList, List.mem_singleton] at hc
    rcases hc with hc | rfl
    · exact .inl (fetch_eq (h.get?_guard c hc))
    · exact .inr (fetch_eq h.get?_marker)
  refine ⟨(List.suffix_cons exit _).isInfix.trans h.isInfix_tail, fun c hc ↦ ?_,
    fun c hc t ht ↦ ?_, fun c hc htaken ↦ ?_⟩
  · rcases hfetch c hc with hc | hc <;> rw [hc] <;> rfl
  · rcases hfetch c hc with hc | hc <;> rw [hc] at ht
    · exact List.mem_singleton.1 ht
    · cases ht
  · rcases hfetch c hc with hc | hc <;> rw [hc] at htaken ⊢
    · exact List.mem_singleton_self behind
    · cases htaken

/-- The assumption behind the exit comes in front of the other scaffolding there. -/
theorem Forwarded.runsInto {target b : InstrId} {ids : List InstrId}
    (h : Forwarded s l condition target p q) (hbranch : condition.branch ∉ ids)
    (hexit : l.exit ∉ ids) (hids : p.RunsInto ids b) (hpiece : l.exit :: ids ++ [b] <:+: p.order) :
    q.RunsInto (p.fresh :: ids) b := by
  have hnew : l.exit :: ([p.fresh] ++ (ids ++ [b])) <:+: q.order := h.splice.isInfix_insert hpiece
  have hmem : ∀ c ∈ ids, c ∈ p.order := fun c hc ↦
    hids.isInfix.subset (List.mem_append_left _ hc)
  have hold : q.RunsInto ids b := by
    refine hids.of_isInfix ?_ (fun c hc ↦ h.extension.retained c (hmem c hc)) fun c hc ↦ ?_
    · exact (List.suffix_append [l.exit, p.fresh] _).isInfix.trans hnew
    · rw [fetch_eq (h.get?_old c (hmem c hc)),
        if_neg fun e : c = l.exit ↦ hexit (e ▸ hc),
        if_neg fun e : c = condition.branch ↦ hbranch (e ▸ hc)]
  refine hold.cons ((List.suffix_cons l.exit _).isInfix.trans hnew) ?_ ?_ ?_ <;>
    rw [fetch_eq h.get?_new] <;> rfl

/-- Converting a loop writes an assumption behind it that runs into what stood behind the exit. -/
theorem Converted.runsInto (hconv : Converted s l body condition points assumption p p₁ p₂ p₃ q)
    (hafter : s.config.assumesAfter = true) (hcond : p.HasCondition l body condition) :
    ∃ a ids b, assumption = some a ∧ p.next? l.exit = some b ∧ q.RunsInto (a :: ids) b := by
  obtain ⟨behind, copy, jump, marker, target, hunwound, hassumption, -, hforwarded⟩ :=
    hconv.exists_passes hafter
  obtain ⟨hhead, hexit, hle⟩ := range_eq_ok hcond.range
  have hext₁ := hconv.scaffolded.extension
  -- what the unwinding wrote was not there before
  have hnew : ∀ c ∈ jump.toList ++ [marker], c ∉ p₁.order := by
    obtain ⟨r, hpr, -⟩ := hunwound.splice
    exact fun c ↦ hpr.notMem_of_mem_new
  have hids₃ := hforwarded.runsInto
    (fun hmem ↦ hnew _ hmem (hext₁.mem hcond.branch_mem_order))
    (fun hmem ↦ hnew _ hmem (hext₁.mem hexit)) hunwound.runsInto hunwound.isInfix_tail
  refine ⟨p₂.fresh, jump.toList ++ [marker], behind, hassumption, ?_, ?_⟩
  · have hnext := hunwound.next
    rwa [hconv.scaffolded.splice.next?_old hexit, if_neg (by omega)] at hnext
  · have hmem : ∀ c ∈ p₂.fresh :: (jump.toList ++ [marker]), c ∈ p₃.order := fun c hc ↦
      hids₃.isInfix.subset (List.mem_append_left _ hc)
    obtain rfl | ⟨ids, hassumed⟩ := hconv.assumed.eq_or_exists
    · exact hids₃
    · exact hids₃.of_isInfix (hassumed.order ▸ hids₃.isInfix)
        (fun c hc ↦ hassumed.extension.retained c (hmem c hc)) fun c hc ↦
          hassumed.targets_eq (hmem c hc)

/-! ### The run over all functions -/

/-- The only loop of a function is dealt with. -/
theorem exists_dealt_of_run_convertFunction {discovery : Discovery} {vs : List Verdict}
    (hclean : p.Clean) (hloops : discovery name p = [l])
    (hrun : (convertFunction s discovery name).run p = .ok vs q) :
    ∃ v, vs = [v] ∧ Dealt s name l p v q := by
  have hrange := exists_range_of_run_convertFunction hrun
  have hnest : p.Nest [l] :=
    ⟨fun m hm ↦ exists_range_iff_isLoop.1 (hrange m (hloops ▸ hm)), List.pairwise_singleton _ _⟩
  have hturns : p.turns [l] = [l] := List.perm_singleton.1 (p.turns_perm [l])
  have hpending : Pending p [l] p := hturns ▸ hclean.pending hnest
  rw [run_convertFunction hrange, hloops, hturns, EStateM.run_mapM_cons] at hrun
  cases hstep : (Edit.atLoop name l (Edit.convertLoop s name l)).run p with
  | error e r =>
    rw [hstep] at hrun
    cases hrun
  | ok v r =>
    rw [hstep] at hrun
    cases hrun
    exact ⟨v, rfl, hpending.dealt_of_run hclean hstep⟩

namespace Renumbered

variable {a b : InstrId}

theorem scaffoldStep_iff (h : Renumbered p q) : q.ScaffoldStep a b ↔ p.ScaffoldStep a b := by
  obtain ⟨location, target, hfetch⟩ := h.exists_fetch_eq a
  rw [ScaffoldStep, ScaffoldStep, h.edge_iff, hfetch]
  rfl

end Renumbered

/-- After a run that succeeds with all assumptions written, in a function without scaffolding, with
live targets, and with one loop, the first conditional jump of that loop goes to the assumption that
was written for it. From there scaffolding leads to what stands right behind the exit in the input,
and to nothing else of the input. So it leads to the target by which the jump left the loop exactly
if that target stands right behind the exit. -/
theorem Functions.run_scaffoldSteps {fs : Functions} {discovery : Discovery} {report : Report}
    (hafter : s.config.assumesAfter = true)
    (hrun : (fs.run s discovery).progress.outcome = .ok report) :
    ∀ sm ∈ report.converted, ∀ f l, fs.get? sm.function = some f → f.body.Clean →
      discovery sm.function f.body = [l] →
      ∃ g condition t a, (fs.run s discovery).functions.get? sm.function = some g ∧
        f.body.loopCondition l.head l.exit = .ok (some condition) ∧
        condition.exitTarget = some t ∧ t ∈ f.body.order ∧
        sm.branch = some condition.branch ∧ sm.assumption = some a ∧
        a ∈ (g.body.fetch condition.branch).targets ∧
        ∀ x ∈ f.body.order, Relation.ReflTransGen g.body.ScaffoldStep a x ↔
          f.body.next? l.exit = some x := by
  intro sm hsm f l hf hclean hloops
  obtain ⟨f', g, vs, q, hf', -, hg, hconvert, hverdict, hnumbered⟩ :=
    exists_of_mem_converted hrun hsm
  cases hf.symm.trans hf'
  obtain ⟨v, rfl, hdealt⟩ := exists_dealt_of_run_convertFunction hclean hloops hconvert
  cases List.mem_singleton.1 hverdict
  generalize sm.function = name at hdealt hg
  cases hdealt with
  | converted hcond hconv =>
    obtain ⟨_, _, _, _, t, -, -, ht, -⟩ := hconv.exists_passes hafter
    obtain ⟨a, ids, b, rfl, hnext, hids⟩ := hconv.runsInto hafter hcond
    obtain ⟨_, ha, -, honly⟩ := hconv.closed hafter hcond (.refl f.body) hclean.live
    cases ha
    have hscaffold : ∀ x ∈ f.body.order, (q.fetch x).isScaffold = false := fun x hx ↦ by
      rw [(hconv.extension.retained x hx).isScaffold_eq, hclean.isScaffold x hx]
    have hstep : g.body.ScaffoldStep = q.ScaffoldStep := by
      funext c d
      exact propext hnumbered.scaffoldStep_iff
    refine ⟨g, _, t, a, hg, loopCondition_eq_some hcond, ht, ?_, rfl, rfl, ?_, fun x hx ↦ ?_⟩
    · exact hclean.live _ _ (get?_eq_some_fetch hcond.branch_mem_order) t
        (hcond.mem_targets_of_exitTarget ht).1
    · rw [← mem_jumpSources_iff, hnumbered.mem_jumpSources_iff, honly]
    · rw [hstep, hids.reflTransGen_iff (hscaffold b (mem_of_next? hnext)) (hscaffold x hx), hnext,
        Option.some.injEq]

theorem Functions.run_scaffoldSteps_leftWhere :
    let p := Edit.leftWhere (.not (.var ⟨"again", .bool⟩))
    let r := (single "main" p).run { config := .full } fun _ _ ↦ [⟨⟨0⟩, ⟨2⟩, []⟩]
    ∃ report sm g condition t a, r.progress.outcome = .ok report ∧ sm ∈ report.converted ∧
      r.functions.get? "main" = some g ∧ p.loopCondition ⟨0⟩ ⟨2⟩ = .ok (some condition) ∧
      condition.exitTarget = some t ∧ t ∈ p.order ∧ sm.branch = some condition.branch ∧
      sm.assumption = some a ∧ a ∈ (g.body.fetch condition.branch).targets ∧
      ∀ x ∈ p.order, Relation.ReflTransGen g.body.ScaffoldStep a x ↔ p.next? ⟨2⟩ = some x := by
  intro p r
  have hnames : r.progress.outcome.toOption.map (·.converted.map LoopSummary.function) =
      some ["main"] := by decide +kernel
  cases hrun : r.progress.outcome with
  | error fault =>
    rw [hrun] at hnames
    cases hnames
  | ok report =>
    rw [hrun] at hnames
    obtain ⟨sm, hconverted, hname⟩ := List.map_eq_singleton_iff.1 (Option.some.inj hnames)
    have hsm : sm ∈ report.converted := hconverted ▸ List.mem_singleton_self sm
    obtain ⟨g, condition, t, a, hg, hreached⟩ := run_scaffoldSteps rfl hrun sm hsm (.ofBody p)
      ⟨⟨0⟩, ⟨2⟩, []⟩ (by rw [hname]; rfl) (show p.Clean by decide) rfl
    exact ⟨report, sm, g, condition, t, a, rfl, hsm, hname ▸ hg, hreached⟩

/-- A loop that is left by a jump past the instruction behind it. -/
def leftPast : Program :=
  .ofList [.goto ⟨4⟩ (.not (.var ⟨"again", .bool⟩)), .assert (.var ⟨"safe", .bool⟩),
    .goto ⟨0⟩ (.bool true), .assign (.var ⟨"again", .bool⟩) (.bool false), .endFunction]

/-- The jump out of the loop is sent to an assumption from which scaffolding does not lead to the
target of the jump, but to the assignment behind the loop. -/
theorem Functions.run_scaffoldSteps_leftPast :
    let r := (single "main" leftPast).run { config := .full } fun _ _ ↦ [⟨⟨0⟩, ⟨2⟩, []⟩]
    leftPast.Clean ∧ ∃ report sm g condition a, r.progress.outcome = .ok report ∧
      report.converted = [sm] ∧ r.functions.get? "main" = some g ∧
      leftPast.loopCondition ⟨0⟩ ⟨2⟩ = .ok (some condition) ∧ condition.exitTarget = some ⟨4⟩ ∧
      sm.assumption = some a ∧ (g.body.fetch condition.branch).targets = [a] ∧
      Relation.ReflTransGen g.body.ScaffoldStep a ⟨3⟩ ∧
      ¬ Relation.ReflTransGen g.body.ScaffoldStep a ⟨4⟩ := by
  intro r
  have hpast : (r.progress.outcome.toOption.any fun report ↦
      (r.functions.get? "main").any fun g ↦
        (leftPast.loopCondition ⟨0⟩ ⟨2⟩).toOption.join.any fun condition ↦ decide (
          report.converted.map LoopSummary.assumption = [some ⟨9⟩] ∧
          condition.exitTarget = some ⟨4⟩ ∧ (g.body.fetch condition.branch).targets = [⟨9⟩] ∧
          g.body.RunsInto [⟨9⟩, ⟨6⟩] ⟨3⟩ ∧ (g.body.fetch ⟨3⟩).isScaffold = false ∧
          (g.body.fetch ⟨4⟩).isScaffold = false)) = true := by decide +kernel
  obtain ⟨report, hreport, hpast⟩ := (Option.any_eq_true _ _).1 hpast
  obtain ⟨g, hg, hpast⟩ := (Option.any_eq_true _ _).1 hpast
  obtain ⟨condition, hcondition, hpast⟩ := (Option.any_eq_true _ _).1 hpast
  obtain ⟨hmap, htarget, hbranch, hinto, h₃, h₄⟩ := of_decide_eq_true hpast
  obtain ⟨sm, hconverted, ha⟩ := List.map_eq_singleton_iff.1 hmap
  refine ⟨by decide, report, sm, g, condition, ⟨9⟩, eq_ok_of_toOption hreport, hconverted, hg,
    eq_ok_of_toOption (Option.join_eq_some_iff.1 hcondition), htarget, ha, hbranch,
    hinto.reflTransGen, fun hreach ↦ ?_⟩
  exact absurd (hinto.eq_of_reflTransGen h₃ h₄ hreach) (by decide)

end LoopInduction
