import LoopInduction.Proofs.Loop.Unwinding
import LoopInduction.Proofs.Outcome
import LoopInduction.Proofs.Program.Growth

/-!
# What unwinding leaves of any program

Nothing is asked of the program here; its targets need not even be live. Unwinding a loop either
stops before anything is changed, or every jump of the body could be resolved
(`Program.of_copiesOf_eq_ok`) and it leaves `Program.withIteration` (`Edit.ends_duplicateBody`).
Then the program has grown (`Program.grows_withIteration`), and whatever is no skip and no
scaffolding has a copy (`Program.exists_copy_withIteration`).

## Main definitions

* `Fault.isDanglingJump` : the fault is that of a jump to nowhere.

## Main results

* `Edit.ends_duplicateBody` : both ends of unwinding a loop.
-/

namespace LoopInduction

namespace Except

variable {α β ε : Type} {f : α → Except ε β} {l : List α}

theorem exists_of_mapM_eq_ok {bs : List β} (h : l.mapM f = .ok bs) : ∀ a ∈ l, ∃ b, f a = .ok b := by
  induction l generalizing bs with
  | nil => simp
  | cons a l ih =>
    rw [List.mapM_cons] at h
    cases ha : f a with
    | error e =>
      rw [ha] at h
      cases h
    | ok b =>
      rw [ha] at h
      cases hl : l.mapM f with
      | error e =>
        rw [hl] at h
        cases h
      | ok bs' => exact List.forall_mem_cons.2 ⟨⟨b, ha⟩, ih hl⟩

theorem exists_of_mapM_eq_error {e : ε} (h : l.mapM f = .error e) : ∃ a ∈ l, f a = .error e := by
  induction l with
  | nil => cases h
  | cons a l ih =>
    rw [List.mapM_cons] at h
    cases ha : f a with
    | error e' =>
      rw [ha] at h
      cases h
      exact ⟨a, List.mem_cons_self, ha⟩
    | ok b =>
      rw [ha] at h
      cases hl : l.mapM f with
      | error e' =>
        rw [hl] at h
        cases h
        obtain ⟨a', ha', hfa'⟩ := ih hl
        exact ⟨a', List.mem_cons_of_mem _ ha', hfa'⟩
      | ok bs =>
        rw [hl] at h
        cases h

end Except

/-- The fault says that an instruction jumps to nowhere. -/
def Fault.isDanglingJump : Fault → Bool
  | .danglingJump .. => true
  | _ => false

namespace Program

variable {p : Program} {head exit behind a b u : InstrId} {body cs : List InstrId}
  {builder : GuardBuilder} {e : Fault} {copies : List (Instruction × List CopiedTarget)}

theorem isDanglingJump_of_range (h : p.range a b = .error e) : e.isDanglingJump = false := by
  unfold range at h
  split at h
  · cases h
    rfl
  · split at h
    · cases h
      rfl
    · split at h <;> cases h
      rfl

theorem isDanglingJump_of_bodyToCopy (h : p.bodyToCopy head exit = .error e) :
    e.isDanglingJump = false := by
  rw [bodyToCopy] at h
  cases hrange : p.range head exit with
  | error e' =>
    rw [hrange] at h
    cases h
    exact isDanglingJump_of_range hrange
  | ok body =>
    rw [hrange] at h
    change (if _ then _ else _) = _ at h
    split at h <;> cases h
    rfl

theorem isDanglingJump_of_behindExit (h : p.behindExit head exit = .error e) :
    e.isDanglingJump = false := by
  unfold behindExit at h
  split at h <;> cases h
  rfl

/-! ### Copies that can be made -/

/-- The copies can be made only if every target is there and has a copy, where it is in the body. -/
theorem of_copiesOf_eq_ok (hcs : ∀ u ∈ cs, u ∈ p.order)
    (h : p.copiesOf head body cs = .ok copies) :
    copies = p.listedCopies cs ∧
      ∀ u ∈ cs, ∀ t ∈ (p.fetch u).targets, t ∈ p.order ∧ (t ∈ body → t ∈ cs) := by
  have htargets : ∀ u ∈ cs, ∀ t ∈ (p.fetch u).targets, t ∈ p.order ∧ (t ∈ body → t ∈ cs) := by
    intro u hu t ht
    obtain ⟨_, hcopy⟩ := Except.exists_of_mapM_eq_ok h u hu
    cases hts : (p.fetch u).targets.mapM (p.copiedTarget head body cs u) with
    | error e =>
      rw [hts] at hcopy
      cases hcopy
    | ok ts =>
      obtain ⟨c, hc⟩ := Except.exists_of_mapM_eq_ok hts t ht
      by_cases hmem : t ∈ cs
      · exact ⟨hcs t hmem, fun _ ↦ hmem⟩
      · rw [copiedTarget, List.idxOf?_eq_none_iff.2 hmem] at hc
        simp only at hc
        split at hc
        · cases hc
        · next hbody =>
          split at hc
          · next hlive => exact ⟨contains_iff.1 hlive, fun hb ↦ absurd hb hbody⟩
          · cases hc
  have hcopies : p.copiesOf head body cs = .ok (p.listedCopies cs) :=
    copiesOf_eq_ok (fun u hu t ht ↦ (htargets u hu t ht).2) fun u hu t ht ↦ (htargets u hu t ht).1
  rw [h] at hcopies
  cases hcopies
  exact ⟨rfl, htargets⟩

theorem isDanglingJump_of_copiesOf (h : p.copiesOf head body cs = .error e) :
    e.isDanglingJump = false := by
  obtain ⟨u, -, hu⟩ := Except.exists_of_mapM_eq_error h
  cases hts : (p.fetch u).targets.mapM (p.copiedTarget head body cs u) with
  | ok ts =>
    rw [hts] at hu
    cases hu
  | error e' =>
    rw [hts] at hu
    cases hu
    obtain ⟨t, -, ht⟩ := Except.exists_of_mapM_eq_error hts
    unfold copiedTarget at ht
    split at ht
    · cases ht
    · split at ht
      · cases ht
        rfl
      · split at ht <;> cases ht
        rfl

/-! ### The new iteration -/

theorem grows_withTail (builder : GuardBuilder) (hexit : exit ∈ p.order)
    (hbehind : behind ∈ p.order) : p.Grows (p.withTail exit behind builder) := by
  refine grows_insertAllAt _ (position_lt_iff.2 hexit) fun i hi ↦ ?_
  unfold tailBehind at hi
  split at hi
  · cases List.mem_singleton.1 hi
    exact ⟨Origin.noConfusion, fun _ ↦ soundTargets_nil⟩
  · rcases List.mem_pair.1 hi with rfl | rfl
    · exact ⟨Origin.noConfusion, fun _ ↦ soundTargets_singleton hbehind⟩
    · exact ⟨Origin.noConfusion, fun _ ↦ soundTargets_nil⟩

section

variable {r : Program} (hexit : exit ∈ r.order) (hcs : cs.Nodup)
  (htargets : ∀ u ∈ cs, ∀ t ∈ (p.fetch u).targets, t ∈ r.order)

include hexit hcs htargets

/-- Targets that are taken to the copies stay sound. -/
theorem soundTargets_map_copyId (hu : u ∈ cs) (hnodup : (p.fetch u).targets.Nodup) :
    (r.withAllCopies exit (p.listedCopies cs)).SoundTargets ((p.fetch u).targets.map fun t ↦
      if t ∈ cs then copyId r.slots.size cs t else t) := by
  have hsplice := splice_withAllCopies (p := p) hcs hexit
  have hcopies := hasCopies_withAllCopies (p := p) hcs hexit
  have hnew : ∀ t ∈ cs, ∀ t' ∈ r.order, copyId r.slots.size cs t ≠ t' := by
    rintro t ht t' ht' rfl
    exact hsplice.notMem_of_mem_new (List.mem_map_of_mem ht) ht'
  refine ⟨fun t ht ↦ ?_, hnodup.map_on fun t ht t' ht' htt' ↦ ?_⟩
  · obtain ⟨v, hv, rfl⟩ := List.mem_map.1 ht
    split
    · next hvc => exact hsplice.mem_new (List.mem_map_of_mem hvc)
    · exact hsplice.mem_old (htargets u hu v hv)
  · split at htt'
    · next htc =>
      split at htt'
      · next htc' => exact hcopies.copy_inj htc htc' htt'
      · exact absurd htt' (hnew t htc t' (htargets u hu t' ht'))
    · split at htt'
      · next htc' => exact absurd htt'.symm (hnew t' htc' t (htargets u hu t ht))
      · exact htt'

/-- Up to the removal of skips the copies are put in and nothing else is touched. -/
theorem grows_withAllCopies (hsound : r.Sound → ∀ u ∈ cs, (p.fetch u).targets.Nodup) :
    r.Grows (r.withAllCopies exit (p.listedCopies cs)) := by
  have hsplice := splice_withAllCopies (p := p) hcs hexit
  have hfetch : ∀ id ∈ r.order, (r.withAllCopies exit (p.listedCopies cs)).fetch id = r.fetch id :=
    fun id hid ↦ by rw [fetch, get?_withAllCopies_old hid, fetch]
  refine ⟨hsplice.sublist, fun id hid ↦ ⟨_, hfetch id hid⟩, fun id hid hr ↦ ?_, fun hr id hid ↦ ?_⟩
  · obtain ⟨u, hu, rfl⟩ := List.mem_map.1 ((hsplice.mem_iff.1 hid).resolve_left hr)
    rw [fetch_eq (get?_withAllCopies_copy hcs hu)]
    exact Origin.noConfusion
  · rcases hsplice.mem_iff.1 hid with hid | hid
    · rw [hfetch id hid]
      exact (hr id hid).of_sublist hsplice.sublist
    · obtain ⟨u, hu, rfl⟩ := List.mem_map.1 hid
      rw [fetch_eq (get?_withAllCopies_copy hcs hu)]
      exact soundTargets_map_copyId hexit hcs htargets hu (hsound hr u hu)

end

section

variable (hrange : p.range head exit = .ok body)
  (htargets : ∀ u ∈ p.copied body, ∀ t ∈ (p.fetch u).targets, t ∈ p.order)

include hrange

theorem copied_subset_order (hu : u ∈ p.copied body) : u ∈ p.order :=
  ((mem_range_iff hrange).1 (mem_copied.1 hu).1).1

include htargets

/-- A loop of whatever program grows by one iteration. -/
theorem grows_withIteration (hbehind : behind ∈ p.order) :
    p.Grows (p.withIteration exit behind builder (p.copied body)) := by
  have hexit := (range_eq_ok hrange).2.1
  have htail := grows_withTail builder hexit hbehind
  have hcs := copied_nodup (p := p) (nodup_of_range hrange)
  have hall := grows_withAllCopies (htail.mem hexit) hcs
    (fun u hu t ht ↦ htail.mem (htargets u hu t ht)) fun hsound u hu ↦ by
      have hup := copied_subset_order hrange hu
      have hfetch : (p.withTail exit behind builder).fetch u = p.fetch u := by
        rw [fetch, get?_withTail hup, fetch]
      exact hfetch ▸ (hsound u (htail.mem hup)).nodup
  refine htail.trans (hall.removeSkipsWhere fun a _ ha ↦ ?_)
  exact notMem_of_mem_freshIds (of_decide_eq_true ha)

/-- What is no skip and no scaffolding has a copy, which was not there before. -/
theorem exists_copy_withIteration (behind : InstrId) (builder : GuardBuilder) (hu : u ∈ body)
    (hscaffold : (p.fetch u).isScaffold = false) (hskip : (p.fetch u).isSkip = false) :
    ∃ c, c ∈ (p.withIteration exit behind builder (p.copied body)).order ∧ c ∉ p.order ∧
      ∃ ts, (p.withIteration exit behind builder (p.copied body)).fetch c =
        { (p.fetch u).duplicate with targets := ts } := by
  have hexit := (range_eq_ok hrange).2.1
  have hexit' := mem_withTail hexit behind builder hexit
  have hcs := copied_nodup (p := p) (nodup_of_range hrange)
  have hcu := mem_copied.2 ⟨hu, hscaffold⟩
  have htail := splice_withTail hexit behind builder
  obtain ⟨ts, hget, -⟩ := get?_withCopies_copy hcs hexit' hcu hskip
    fun t ht ↦ htail.mem_old (htargets u hcu t ht)
  refine ⟨_, mem_of_get? hget, fun hmem ↦ ?_, ts, fetch_eq hget⟩
  exact (splice_withAllCopies (p := p) hcs hexit').notMem_of_mem_new (List.mem_map_of_mem hcu)
    (htail.mem_old hmem)

end

end Program

namespace Edit

open Program

variable {p q : Program} {head exit : InstrId} {builder : GuardBuilder} {pts : IterationPoints}

/-- Unwinding a loop of any program stops before anything is changed, or resolves all targets and
writes one more iteration. -/
theorem ends_duplicateBody : EStateM.Ends (duplicateBody head exit builder) p
    (fun _ q ↦ ∃ body behind, p.range head exit = .ok body ∧ p.next? exit = some behind ∧
      (∀ u ∈ p.copied body, ∀ t ∈ (p.fetch u).targets, t ∈ p.order) ∧
      q = p.withIteration exit behind builder (p.copied body))
    (fun e q ↦ q = p ∧ e.isDanglingJump = false) := by
  cases hbody : p.bodyToCopy head exit with
  | error e =>
    refine EStateM.ends_of_error (e := e) ?_ ⟨rfl, isDanglingJump_of_bodyToCopy hbody⟩
    rw [duplicateBody, EStateM.run_bind, run_ask_error hbody]
  | ok body =>
    obtain ⟨hrange, hne⟩ := range_of_bodyToCopy hbody
    cases hbehind : p.behindExit head exit with
    | error e =>
      refine EStateM.ends_of_error (e := e) ?_ ⟨rfl, isDanglingJump_of_behindExit hbehind⟩
      rw [duplicateBody, EStateM.run_bind, run_ask_ok hbody]
      simp only
      rw [EStateM.run_bind, run_ask_error hbehind]
    | ok behind =>
      have hnext := next?_of_behindExit hbehind
      cases hcopies : p.copiesOf head body (p.copied body) with
      | error e =>
        refine EStateM.ends_of_error (e := e) ?_ ⟨rfl, isDanglingJump_of_copiesOf hcopies⟩
        rw [copied] at hcopies
        simp only [duplicateBody, EStateM.run_bind, run_ask, hbody, hbehind, hcopies]
      | ok copies =>
        obtain ⟨rfl, htargets⟩ := of_copiesOf_eq_ok (fun u ↦ copied_subset_order hrange) hcopies
        exact EStateM.ends_of_ok (run_duplicateBody_of_copiesOf builder hrange hne hnext hcopies)
          ⟨body, behind, hrange, hnext, fun u hu t ht ↦ (htargets u hu t ht).1, rfl⟩

/-- Unwinding a loop puts instructions in behind the exit and in front of it, and retains all
others. -/
theorem retained_of_run_duplicateBody
    (hrun : (duplicateBody head exit builder).run p = .ok pts q) :
    (∃ r new new', p.Splice r (p.position exit + 1) new ∧ r.Splice q (p.position exit) new') ∧
      ∀ id ∈ p.order, (p.fetch id).Retained (q.fetch id) := by
  obtain ⟨body, behind, hrange, hnext, htargets, rfl⟩ := ends_duplicateBody.of_run_ok hrun
  have hexit := (range_eq_ok hrange).2.1
  have hexit' := mem_withTail hexit behind builder hexit
  have hcopies := splice_withCopies (p := p)
    (copied_nodup (p := p) (nodup_of_range hrange)) hexit'
  rw [position_exit_withTail hexit behind builder] at hcopies
  exact ⟨⟨_, _, _, splice_withTail hexit behind builder, hcopies⟩,
    (grows_withIteration hrange htargets (mem_of_next? hnext)).extension.retained⟩

end Edit

end LoopInduction
