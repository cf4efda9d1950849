import LoopInduction.Proofs.Conversion.Function
import LoopInduction.Proofs.Loop.Copying
import LoopInduction.Proofs.Expr.Polarity

/-!
# What the assumptions around a loop say

A conversion assumes the condition of a loop in front of its head and, if that is switched on, its
negation behind its exit. Both are made from the guard of the first conditional jump with all the
negations in front of it taken off. If there is an odd number of them, the loop is entered where
the guard does not hold and left where it does. If there is an even number, as in front of a guard
that is not negated at all, it is the other way round: what leaves the loop by the jump is then
stopped by the assumption that it is sent to (`Edit.value_assumptions`).

Nothing is asked of the program, not even that its targets are live: a conversion that succeeds
retains all instructions (`Edit.retained_of_run_unwindIf`).

## Main definitions

* `Program.Assumes` : an instruction is an assumption that a transformation wrote.

## Main results

* `Edit.value_assumptions` : the values of the two assumptions, by the number of negations.
-/

namespace LoopInduction

variable {p q : Program} {s : Setup} {l : Loop} {condition : LoopCondition} {body : List InstrId}
  {guard e : Expr} {a : InstrId} {name : String} {sm : LoopSummary}

namespace Program

/-- At `a` the transformation assumes the condition `e`. -/
structure Assumes (p : Program) (a : InstrId) (e : Expr) : Prop where
  isAssume : (p.fetch a).isAssume = true
  isScaffold : (p.fetch a).isScaffold = true
  guard_eq : (p.fetch a).guard = e

theorem assumes_of_get? {i : Instruction}
    (h : p.get? a = some ((Instruction.assume e).scaffoldAt i)) : p.Assumes a e := by
  constructor <;> rw [fetch_eq h] <;> rfl

theorem Assumes.of_retained (h : p.Assumes a e) (hr : (p.fetch a).Retained (q.fetch a)) :
    q.Assumes a e where
  isAssume := hr.isAssume_of_isAssume h.isAssume
  isScaffold := hr.isScaffold_eq.trans h.isScaffold
  guard_eq := hr.guard_eq.trans h.guard_eq

end Program

open Program

/-- Right in front of the head of a scaffolded loop its condition is assumed. -/
theorem Scaffolded.exists_assumes (h : Scaffolded s l guard body p q) (hhead : l.head ∈ p.order) :
    ∃ a, q.next? a = some l.head ∧ q.Assumes a guard.normalized := by
  have hids : p.freshIds (l.vars.length + 1) =
      p.freshIds l.vars.length ++ ⟨p.slots.size + l.vars.length⟩ :: [] := by
    rw [freshIds, freshIds, List.range_succ, List.map_append]
    rfl
  have hsplice := h.splice
  rw [hids] at hsplice
  refine ⟨⟨p.slots.size + l.vars.length⟩, ?_, ?_⟩
  · rw [hsplice.next?_new, getElem?_position hhead]
    rfl
  · refine assumes_of_get? (i := p.fetch l.head) ?_
    rw [h.get?_new, scaffoldBlock, List.getElem?_append_right (by simp), List.length_map,
      Nat.sub_self]
    rfl

/-- Behind the exit of a loop that is left through an assumption its negated condition is
assumed. -/
theorem Forwarded.assumes {target : InstrId} (h : Forwarded s l condition target p q) :
    q.Assumes p.fresh (s.builder.negate condition.guard.normalized) :=
  assumes_of_get? h.get?_new

theorem Forwarded.next?_exit {target : InstrId} (h : Forwarded s l condition target p q)
    (hexit : l.exit ∈ p.order) : q.next? l.exit = some p.fresh := by
  rw [h.splice.next?_old hexit, if_pos rfl]
  rfl

theorem AssumedIf.next?_eq (h : AssumedIf s l p q) : q.next? a = p.next? a :=
  next?_congr h.order_eq

theorem ForwardedIf.isSome_eq {assumption : Option InstrId}
    (h : ForwardedIf s l condition assumption p q) : assumption.isSome = s.config.assumesAfter := by
  cases assumption with
  | none => exact h.1.symm
  | some a => exact h.1.symm

/-- The assumption behind a loop does not come between the head and what stands in front of it. -/
theorem ForwardedIf.next?_head {assumption : Option InstrId}
    (h : ForwardedIf s l condition assumption p q) (hle : p.position l.head ≤ p.position l.exit)
    (ha : p.next? a = some l.head) : q.next? a = some l.head := by
  obtain rfl | ⟨_, -, -, h⟩ := h.eq_or_exists
  · exact ha
  · exact h.splice.next?_eq_some ha (by omega)

namespace Edit

/-! ### Passes that succeed -/

/-- Unwinding, if it is switched on, retains all instructions and puts nothing in between a head and
what stands in front of it. -/
theorem retained_of_run_unwindIf {points : Option IterationPoints}
    (hlt : p.position l.head < p.position l.exit) (hrun : (unwindIf s l).run p = .ok points q) :
    p.order.Sublist q.order ∧ (∀ id ∈ p.order, (p.fetch id).Retained (q.fetch id)) ∧
      ∀ a, p.next? a = some l.head → q.next? a = some l.head := by
  rw [unwindIf] at hrun
  cases hdup : s.config.duplicateBody with
  | false =>
    rw [hdup] at hrun
    cases hrun
    exact ⟨.refl _, fun _ _ ↦ .refl _, fun _ ↦ id⟩
  | true =>
    rw [hdup, if_pos rfl, run_map] at hrun
    cases hcopy : (duplicateBody l.head l.exit s.builder).run p with
    | error f r =>
      rw [hcopy] at hrun
      cases hrun
    | ok pts r =>
      rw [hcopy] at hrun
      cases hrun
      obtain ⟨⟨t, _, _, hpt, htq⟩, hretained⟩ := retained_of_run_duplicateBody hcopy
      refine ⟨hpt.sublist.trans htq.sublist, hretained, fun a ha ↦
        htq.next?_eq_some (hpt.next?_eq_some ha (by omega)) ?_⟩
      rw [hpt.position_old (mem_of_next? ha), if_pos (by omega)]
      omega

theorem forwardedIf_of_run {assumption : Option InstrId} (hexit : l.exit ∈ p.order)
    (hgoto : (p.fetch l.exit).isGoto = true)
    (hbranch : condition.branch ∈ p.order) (hne : condition.branch ≠ l.exit)
    (hrun : (forwardIf s l condition).run p = .ok assumption q) :
    ForwardedIf s l condition assumption p q := by
  rw [forwardIf] at hrun
  cases hafter : s.config.assumesAfter with
  | false =>
    rw [hafter] at hrun
    cases hrun
    exact ⟨hafter, rfl⟩
  | true =>
    rw [hafter, if_pos rfl, run_map] at hrun
    cases hforward : (assumeForward s l condition).run p with
    | error f r =>
      rw [hforward] at hrun
      cases hrun
    | ok a r =>
      rw [hforward] at hrun
      cases hrun
      exact ⟨hafter, forwarded_of_run hexit hgoto hbranch hne hforward⟩

theorem assumedIf_of_run (hrange : ∃ ids, p.range l.head l.exit = .ok ids)
    (hrun : (assumeIf s l).run p = .ok () q) : AssumedIf s l p q := by
  obtain ⟨r, hrun', h⟩ := run_assumeIf (s := s) hrange
  cases hrun.symm.trans hrun'
  exact h

/-! ### The two assumptions -/

/-- A loop that is converted has the two assumptions, the second only if that is switched on. -/
theorem assumes_of_run_convertWith (hcond : p.HasCondition l body condition)
    (hrun : (convertWith s name l condition).run p = .ok sm q) :
    sm.branch = some condition.branch ∧ sm.assumption.isSome = s.config.assumesAfter ∧
      (∃ a, q.next? a = some l.head ∧ q.Assumes a condition.guard.normalized) ∧
      ∀ a, sm.assumption = some a → q.next? l.exit = some a ∧
        q.Assumes a (s.builder.negate condition.guard.normalized) := by
  obtain ⟨hhead, hexit, hle⟩ := range_eq_ok hcond.range
  have hbranch := hcond.branch_mem_order
  have hlt : p.position l.head < p.position l.exit := by
    have := (mem_range_iff hcond.range).1 hcond.branch_mem
    omega
  obtain ⟨points, assumption, p₁, p₂, p₃, hrun₁, hrun₂, hrun₃, hrun₄, rfl⟩ :=
    exists_of_run_convertWith hrun
  obtain ⟨hgoto, h₁⟩ := scaffolded_of_run hcond.range hrun₁
  have hext₁ := h₁.extension
  obtain ⟨hsub₂, hretained₂, hnext₂⟩ := retained_of_run_unwindIf
    ((hext₁.position_lt_iff hhead hexit).2 hlt) hrun₂
  have hmem₂ : ∀ id ∈ p.order, id ∈ p₂.order := fun id hid ↦ hsub₂.subset (hext₁.mem hid)
  have h₃ := forwardedIf_of_run (hmem₂ _ hexit)
    (by rw [(hretained₂ _ (hext₁.mem hexit)).isGoto_eq, (hext₁.retained _ hexit).isGoto_eq, hgoto])
    (hmem₂ _ hbranch) hcond.branch_ne_exit hrun₃
  have hle₂ : p₂.position l.head ≤ p₂.position l.exit :=
    (position_le_iff_of_sublist hsub₂ (hext₁.mem hhead) (hext₁.mem hexit)).2
      ((hext₁.position_le_iff hhead hexit).2 hle)
  have hext₃ := h₃.extension
  have h₄ := assumedIf_of_run (exists_range_iff.2 ⟨hext₃.mem (hmem₂ _ hhead),
    hext₃.mem (hmem₂ _ hexit),
    (hext₃.position_le_iff (hmem₂ _ hhead) (hmem₂ _ hexit)).2 hle₂⟩) hrun₄
  refine ⟨rfl, h₃.isSome_eq, ?_, fun a ha ↦ ?_⟩
  · obtain ⟨a, hnext, hassumes⟩ := h₁.exists_assumes hhead
    have ha := (next?_eq_some_iff.1 hnext).1
    have hkept := hext₃.trans h₄.extension
    refine ⟨a, ?_, (hassumes.of_retained (hretained₂ a ha)).of_retained
      (hkept.retained a (hsub₂.subset ha))⟩
    rw [h₄.next?_eq]
    exact h₃.next?_head hle₂ (hnext₂ a hnext)
  · cases ha
    obtain ⟨-, rfl, target, -, hforwarded⟩ := h₃
    have hnext := hforwarded.next?_exit (hmem₂ _ hexit)
    rw [h₄.next?_eq]
    exact ⟨hnext, hforwarded.assumes.of_retained (h₄.extension.retained _ (mem_of_next? hnext))⟩

/-- Where a loop of any program is converted, an assumption stands right in front of its head and,
if that is switched on, another one right behind its exit. Under an odd number of negations the
first one holds exactly where the guard of the recorded jump does not, and the second one, as the
simplifying builder writes it, exactly where the guard does. Under an even number it is the other
way round. -/
theorem value_assumptions (I : Interpretation)
    (hrun : (convertLoop s name l).run p = .ok (.converted sm) q) :
    ∃ condition a e, p.loopCondition l.head l.exit = .ok (some condition) ∧
      sm.branch = some condition.branch ∧ (p.fetch condition.branch).guard = condition.guard ∧
      q.next? a = some l.head ∧ q.Assumes a e ∧
      I.value e = (if Odd condition.guard.negations then !I.value condition.guard
        else I.value condition.guard) ∧
      sm.assumption.isSome = s.config.assumesAfter ∧
      ∀ a', sm.assumption = some a' → ∃ e', q.next? l.exit = some a' ∧ q.Assumes a' e' ∧
        (s.builder = .simplifying → I.value e' = if Odd condition.guard.negations
          then I.value condition.guard else !I.value condition.guard) := by
  obtain ⟨condition, hloop, hconvert⟩ := exists_of_run_convertLoop hrun
  obtain ⟨body, hcond⟩ := exists_hasCondition hloop
  obtain ⟨hbranch, hsome, ⟨a, hnext, hassumes⟩, hafter⟩ := assumes_of_run_convertWith hcond hconvert
  refine ⟨condition, a, _, hloop, hbranch, hcond.guard_eq.symm, hnext, hassumes,
    I.value_normalized _, hsome, fun a' ha' ↦ ?_⟩
  obtain ⟨hnext', hassumes'⟩ := hafter a' ha'
  refine ⟨_, hnext', hassumes', fun hbuilder ↦ ?_⟩
  rw [hbuilder, I.value_negate, I.value_normalized]
  split
  · exact Bool.not_not _
  · rfl

theorem run_converted_of_run' {e : Edit Verdict} {p : Program} {sm : LoopSummary}
    (h : (e.run' p).bind Verdict.converted? = some sm) :
    e.run p = .ok (.converted sm) (EStateM.stateAfter e p) := by
  obtain ⟨v, hv, hsm⟩ := Option.bind_eq_some_iff.1 h
  rw [EStateM.run_eq_ok_of_run' hv, Verdict.converted?_eq_some_iff.1 hsm]

/-- A loop that is left by a jump in front of it, under the given guard. -/
def leftWhere (guard : Expr) : Program :=
  .ofList [.goto ⟨3⟩ guard, .assert (.var ⟨"safe", .bool⟩), .goto ⟨0⟩ (.bool true), .endFunction]

theorem value_assumptions_leftWhere :
    let p := leftWhere (.not (.var ⟨"again", .bool⟩))
    let s : Setup := { config := .full }
    let I := Interpretation.ofAtoms fun _ ↦ true
    ∃ sm q, (convertLoop s "main" ⟨⟨0⟩, ⟨2⟩, []⟩).run p = .ok (.converted sm) q ∧
      ∃ condition a e, p.loopCondition ⟨0⟩ ⟨2⟩ = .ok (some condition) ∧
        sm.branch = some condition.branch ∧ (p.fetch condition.branch).guard = condition.guard ∧
        q.next? a = some ⟨0⟩ ∧ q.Assumes a e ∧
        I.value e = (if Odd condition.guard.negations then !I.value condition.guard
          else I.value condition.guard) ∧
        sm.assumption.isSome = s.config.assumesAfter ∧
        ∀ a', sm.assumption = some a' → ∃ e', q.next? ⟨2⟩ = some a' ∧ q.Assumes a' e' ∧
          (s.builder = .simplifying → I.value e' = if Odd condition.guard.negations
            then I.value condition.guard else !I.value condition.guard) := by
  intro p s I
  obtain ⟨sm, hsm⟩ : ∃ sm, ((convertLoop s "main" ⟨⟨0⟩, ⟨2⟩, []⟩).run' p).bind
      Verdict.converted? = some sm := Option.isSome_iff_exists.1 (by decide +kernel)
  have hrun := run_converted_of_run' hsm
  exact ⟨sm, _, hrun, value_assumptions I hrun⟩

/-- A guard that is not negated: where it holds, the assumption in front of the loop holds too, and
the one that the jump out of the loop is sent to does not. -/
theorem value_assumptions_leftWhere_done :
    let p := leftWhere (.var ⟨"done", .bool⟩)
    let I := Interpretation.ofAtoms fun _ ↦ true
    ∃ sm q, (convertLoop { config := .full } "main" ⟨⟨0⟩, ⟨2⟩, []⟩).run p =
        .ok (.converted sm) q ∧
      sm.branch = some ⟨0⟩ ∧ (p.fetch ⟨0⟩).targets = [⟨3⟩] ∧ I.value (p.fetch ⟨0⟩).guard = true ∧
      q.next? ⟨4⟩ = some ⟨0⟩ ∧ (q.fetch ⟨4⟩).isAssume = true ∧
      I.value (q.fetch ⟨4⟩).guard = true ∧
      sm.assumption = some ⟨8⟩ ∧ (q.fetch ⟨0⟩).targets = [⟨8⟩] ∧ (q.fetch ⟨8⟩).isAssume = true ∧
      I.value (q.fetch ⟨8⟩).guard = false := by
  intro p I
  let q := EStateM.stateAfter (convertLoop { config := .full } "main" ⟨⟨0⟩, ⟨2⟩, []⟩) p
  have hconverted : ((((convertLoop { config := .full } "main" ⟨⟨0⟩, ⟨2⟩, []⟩).run' p).bind
      Verdict.converted?).any fun sm ↦ decide (sm.branch = some ⟨0⟩ ∧
        (p.fetch ⟨0⟩).targets = [⟨3⟩] ∧ I.value (p.fetch ⟨0⟩).guard = true ∧
        q.next? ⟨4⟩ = some ⟨0⟩ ∧ (q.fetch ⟨4⟩).isAssume = true ∧
        I.value (q.fetch ⟨4⟩).guard = true ∧
        sm.assumption = some ⟨8⟩ ∧ (q.fetch ⟨0⟩).targets = [⟨8⟩] ∧
        (q.fetch ⟨8⟩).isAssume = true ∧ I.value (q.fetch ⟨8⟩).guard = false)) = true := by
    decide +kernel
  obtain ⟨sm, hsm, hconverted⟩ := (Option.any_eq_true _ _).1 hconverted
  exact ⟨sm, q, run_converted_of_run' hsm, of_decide_eq_true hconverted⟩

end Edit

end LoopInduction
