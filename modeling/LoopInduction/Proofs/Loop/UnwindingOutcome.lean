import LoopInduction.Proofs.Loop.Copying

/-!
# The outcome of unwinding a loop

Unwinding a loop has two ends, and both are known exactly. It fails if and only if the loop is one
that cannot be unwound (`Program.CannotUnwind`), and then the program is left as it was
(`Edit.duplicateBody_error_iff`); nothing is asked of the program there, and jumps to nowhere that
are outside the body are no obstacle. Where it succeeds on a sound program, the whole of what it
leaves is written down (`Edit.run_duplicateBody_exact`).

## Main definitions

* `Program.CannotUnwind` : what stands in the way of unwinding a loop.

## Main results

* `Edit.duplicateBody_error_iff` : when unwinding fails, and what it leaves then.
* `Edit.run_duplicateBody_exact` : what unwinding leaves where it succeeds.
-/

namespace LoopInduction

namespace Program

variable {p : Program} {head exit : InstrId} {body : List InstrId}

/-- A loop that cannot be unwound: it is no range of the program, has no body or nothing behind its
exit, or a jump of its body cannot be resolved. -/
inductive CannotUnwind (p : Program) (head exit : InstrId) : Prop where
  | head (h : head ∉ p.order)
  | exit (h : exit ∉ p.order)
  | backwards (h : p.position exit < p.position head)
  | noBody (h : p.range head exit = .ok [])
  | last (h : p.last? = some exit)
  /-- An instruction that would be copied jumps to scaffolding of the body, or to nowhere. -/
  | unresolved {body : List InstrId} {id target : InstrId} (hrange : p.range head exit = .ok body)
    (hid : id ∈ body) (hcopied : (p.fetch id).isScaffold = false)
    (htarget : target ∈ (p.fetch id).targets)
    (h : (target ∈ body ∧ (p.fetch target).isScaffold = true) ∨ target ∉ p.order)

/-- A loop that is not in the way of unwinding has a body, and something stands behind its exit. -/
theorem exists_range_of_not_cannotUnwind (h : ¬ p.CannotUnwind head exit) :
    ∃ body behind, p.range head exit = .ok body ∧ body ≠ [] ∧ p.next? exit = some behind := by
  have hexit : exit ∈ p.order := not_not.1 fun hexit ↦ h (.exit hexit)
  obtain ⟨body, hbody⟩ := exists_range_iff.2
    ⟨not_not.1 fun hhead ↦ h (.head hhead), hexit, not_lt.1 fun hlt ↦ h (.backwards hlt)⟩
  cases hnext : p.next? exit with
  | none => exact absurd (.last ((next?_eq_none_iff_last? hexit).1 hnext)) h
  | some behind =>
    refine ⟨body, behind, hbody, ?_, rfl⟩
    rintro rfl
    exact h (.noBody hbody)

/-- Where every jump of the body can be resolved, all the copies can be made. -/
theorem copiesOf_of_not_cannotUnwind (h : ¬ p.CannotUnwind head exit)
    (hrange : p.range head exit = .ok body) :
    p.copiesOf head body (p.copied body) = .ok (p.listedCopies (p.copied body)) := by
  refine copiesOf_eq_ok (fun u hu t ht htb ↦ ?_) fun u hu t ht ↦ ?_
  all_goals obtain ⟨hub, hscaffold⟩ := mem_copied.1 hu
  · by_contra hcopied
    have hst : (p.fetch t).isScaffold = true := by
      simpa [mem_copied, htb] using hcopied
    exact h (.unresolved hrange hub hscaffold ht (.inl ⟨htb, hst⟩))
  · by_contra hlive
    exact h (.unresolved hrange hub hscaffold ht (.inr hlive))

/-- Whatever stands in the way of unwinding a loop is missing in a loop that was unwound. -/
theorem not_cannotUnwind {behind : InstrId} (hrange : p.range head exit = .ok body)
    (hne : body ≠ []) (hnext : p.next? exit = some behind)
    (htargets : ∀ u ∈ p.copied body, ∀ t ∈ (p.fetch u).targets,
      t ∈ p.order ∧ (t ∈ body → t ∈ p.copied body)) : ¬ p.CannotUnwind head exit := by
  obtain ⟨hhead, hexit, hle⟩ := range_eq_ok hrange
  rintro (h | h | h | h | h | ⟨hrange', hu, hscaffold, ht, h⟩)
  · exact h hhead
  · exact h hexit
  · omega
  · exact hne (Except.ok.inj (hrange.symm.trans h))
  · rw [(next?_eq_none_iff_last? hexit).2 h] at hnext
    cases hnext
  · cases hrange.symm.trans hrange'
    obtain ⟨hlive, hin⟩ := htargets _ (mem_copied.2 ⟨hu, hscaffold⟩) _ ht
    rcases h with ⟨htb, hst⟩ | hdead
    · rw [(mem_copied.1 (hin htb)).2] at hst
      cases hst
    · exact hdead hlive

end Program

namespace Edit

open Program

variable {p q : Program} {head exit : InstrId} {builder : GuardBuilder} {pts : IterationPoints}

/-- Unwinding a loop fails if and only if the loop cannot be unwound, and then the whole program is
as it was: its slots, those of removed instructions included, and its order. -/
theorem duplicateBody_error_iff (p : Program) (head exit : InstrId) (builder : GuardBuilder) :
    ((∃ e q, (duplicateBody head exit builder).run p = .error e q) ↔ p.CannotUnwind head exit) ∧
      ∀ e q, (duplicateBody head exit builder).run p = .error e q → q = p := by
  refine ⟨⟨fun ⟨e, q, hrun⟩ ↦ ?_, fun h ↦ ?_⟩,
    fun e q hrun ↦ (ends_duplicateBody.of_run_error hrun).1⟩
  · by_contra h
    obtain ⟨body, behind, hrange, hne, hnext⟩ := exists_range_of_not_cannotUnwind h
    cases hrun.symm.trans (run_duplicateBody_of_copiesOf builder hrange hne hnext
      (copiesOf_of_not_cannotUnwind h hrange))
  · cases hrun : (duplicateBody head exit builder).run p with
    | error e q => exact ⟨e, q, rfl⟩
    | ok pts q =>
      obtain ⟨body, behind, copies, hrange, hne, hnext, hcopies⟩ := exists_of_run_duplicateBody hrun
      exact absurd h (not_cannotUnwind hrange hne hnext
        (of_copiesOf_eq_ok (fun u ↦ copied_subset_order hrange) hcopies).2)

/-- Every id that unwinding gives out is new, to removed instructions too. -/
theorem size_slots_le_of_mem_withIteration {behind : InstrId} {body : List InstrId}
    (hrange : p.range head exit = .ok body) {id : InstrId}
    (hid : id ∈ (p.withIteration exit behind builder (p.copied body)).order) (hnew : id ∉ p.order) :
    p.slots.size ≤ id.index := by
  have hexit := (range_eq_ok hrange).2.1
  have htail := splice_insertAllAt (tailBehind (p.fetch exit) behind builder)
    (position_lt_iff.2 hexit)
  have hcopies := splice_withCopies (p := p) (copied_nodup (p := p) (nodup_of_range hrange))
    (mem_withTail hexit behind builder hexit)
  rcases hcopies.mem_iff.1 hid with hid | hid
  · exact (mem_freshIds.1 ((htail.mem_iff.1 hid).resolve_left hnew)).1
  · obtain ⟨u, -, rfl⟩ := List.mem_map.1 hid
    calc p.slots.size ≤ (p.withTail exit behind builder).slots.size := by
          rw [withTail, size_slots_insertAllAt]
          exact Nat.le_add_right _ _
      _ ≤ _ := Nat.le_add_right _ _

/-- What unwinding leaves of a sound program, in full. In front of the exit stands one copy of each
instruction of the body that is no scaffolding and no skip; behind the exit stand a jump over the
marker, unless the exit is always taken, and the marker. Each copy is the duplicate of its
instruction, with every jump into the body taken to the first copy from its target on, or to the
exit, and with repeated targets listed once. All that was there before is as it was. -/
theorem run_duplicateBody_exact (hsound : p.Sound)
    (hrun : (duplicateBody head exit builder).run p = .ok pts q) :
    ∃ body behind copy guard, p.range head exit = .ok body ∧ body ≠ [] ∧
      p.next? exit = some behind ∧
      q.order = p.order.take (p.position exit) ++ (p.kept body).map copy ++
        exit :: (guard.toList ++ pts.firstExit :: p.order.drop (p.position exit + 1)) ∧
      (∀ id ∈ q.order, id ∉ p.order → p.slots.size ≤ id.index) ∧
      (guard = none ↔ (p.fetch exit).isAlwaysTaken = true) ∧
      (∀ g, guard = some g →
        q.get? g = some ((Instruction.goto behind builder.truth).scaffoldAt (p.fetch exit))) ∧
      q.get? pts.firstExit = some (Instruction.skip.scaffoldAt (p.fetch exit)) ∧
      (∀ u ∈ p.kept body, q.get? (copy u) = some { (p.fetch u).duplicate with
        targets := ((p.fetch u).targets.map
          (p.copyTarget (p.copied body) exit copy)).eraseDups }) ∧
      (∀ u ∈ p.kept body, ∀ t ∈ (p.fetch u).targets, t ∈ body → t ∈ p.copied body) ∧
      (∀ id ∈ p.order, q.get? id = p.get? id) ∧
      pts.copyExit = ((p.kept body).map copy).getLast? ∧
      (pts.copyExit = none ↔ p.kept body = []) := by
  obtain ⟨body, behind, copies, hrange, hne, hnext, hcopies⟩ := exists_of_run_duplicateBody hrun
  obtain ⟨rfl, htargets⟩ := of_copiesOf_eq_ok (fun u ↦ copied_subset_order hrange) hcopies
  cases hrun.symm.trans (run_duplicateBody_of_copiesOf builder hrange hne hnext hcopies)
  have hunwound := unwound_withIteration builder hsound.targetsLive hrange hnext
  refine ⟨body, behind, _, _, hrange, hne, hnext, hunwound.order_eq,
    fun id ↦ size_slots_le_of_mem_withIteration hrange, ?_, hunwound.get?_guard,
    hunwound.get?_marker, fun u hu ↦ ?_, fun u hu t ht ↦ ?_, hunwound.get?_old, rfl, by simp⟩
  · rw [← Option.isNone_iff_eq_none, hunwound.guard_isNone]
  · obtain ⟨ts, hget, -⟩ := hunwound.get?_copy u hu
    have hup := copied_subset_order hrange (mem_kept.1 hu).1
    rw [← hunwound.targets_copy u hu (hsound u hup).nodup, fetch_eq hget, hget]
  · exact (htargets u (mem_kept.1 hu).1 t ht).2

/-- A loop with skips at either end of its body and inside it, with scaffolding between them, and
with a jump that goes to three of the skips and out of the loop. -/
def spacedLoop : Program :=
  .ofList [.assert (.var ⟨"ready", .bool⟩), .skip, .goto ⟨8⟩ (.var ⟨"done", .bool⟩),
    { Instruction.goto ⟨1⟩ (.var ⟨"choice", .bool⟩) with targets := [⟨1⟩, ⟨4⟩, ⟨6⟩, ⟨8⟩] },
    .skip, { Instruction.skip with origin := .scaffold }, .skip,
    .goto ⟨1⟩ (.var ⟨"again", .bool⟩), .endFunction]

/-- Of the jump's targets the first becomes the copy in front of it, the next two both become the
exit, and the last one stays. -/
theorem run_duplicateBody_exact_spacedLoop :
    spacedLoop.Sound ∧ ∃ pts q, (duplicateBody ⟨1⟩ ⟨7⟩ .simplifying).run spacedLoop = .ok pts q ∧
      ∃ leave jump guard, q.order = [⟨0⟩, ⟨1⟩, ⟨2⟩, ⟨3⟩, ⟨4⟩, ⟨5⟩, ⟨6⟩, leave, jump, ⟨7⟩, guard,
          pts.firstExit, ⟨8⟩] ∧
        q.get? jump = some { (spacedLoop.fetch ⟨3⟩).duplicate with targets := [leave, ⟨7⟩, ⟨8⟩] } ∧
        pts.copyExit = some jump := by
  have hsound : spacedLoop.Sound := by decide
  have hunwound : (match (duplicateBody ⟨1⟩ ⟨7⟩ .simplifying).run spacedLoop with
    | .ok _ _ => true
    | .error _ _ => false) = true := by decide +kernel
  split at hunwound
  · next pts q hrun =>
    obtain ⟨body, behind, copy, guard, hrange, -, -, horder, -, hguard, -, -, hcopies, -, -, hlast,
      -⟩ := run_duplicateBody_exact hsound hrun
    obtain rfl : [⟨1⟩, ⟨2⟩, ⟨3⟩, ⟨4⟩, ⟨5⟩, ⟨6⟩] = body :=
      Except.ok.inj ((show spacedLoop.range ⟨1⟩ ⟨7⟩ = _ by decide).symm.trans hrange)
    have hkept : spacedLoop.kept [⟨1⟩, ⟨2⟩, ⟨3⟩, ⟨4⟩, ⟨5⟩, ⟨6⟩] = [⟨2⟩, ⟨3⟩] := by decide
    rw [hkept] at horder hcopies hlast
    obtain ⟨g, rfl⟩ : ∃ g, guard = some g :=
      Option.ne_none_iff_exists'.1 fun h ↦ absurd (hguard.1 h) (by decide)
    have hdiffer : ∀ t ∈ [⟨7⟩, g, pts.firstExit, ⟨8⟩], copy ⟨2⟩ ≠ t :=
      (List.nodup_append.1 (horder ▸ q.order_nodup)).2.2 (copy ⟨2⟩) (by simp)
    have htargets : ((spacedLoop.fetch ⟨3⟩).targets.map (spacedLoop.copyTarget
        (spacedLoop.copied [⟨1⟩, ⟨2⟩, ⟨3⟩, ⟨4⟩, ⟨5⟩, ⟨6⟩]) ⟨7⟩ copy)).eraseDups =
          [copy ⟨2⟩, ⟨7⟩, ⟨8⟩] := by
      have hmap : (spacedLoop.fetch ⟨3⟩).targets.map (spacedLoop.copyTarget
          (spacedLoop.copied [⟨1⟩, ⟨2⟩, ⟨3⟩, ⟨4⟩, ⟨5⟩, ⟨6⟩]) ⟨7⟩ copy) =
            [copy ⟨2⟩, ⟨7⟩, ⟨7⟩, ⟨8⟩] := rfl
      have hexit := (hdiffer ⟨7⟩ (by simp)).symm
      have hbehind := (hdiffer ⟨8⟩ (by simp)).symm
      rw [hmap]
      simp [List.eraseDups_cons, hexit, hbehind]
    refine ⟨hsound, pts, q, hrun, copy ⟨2⟩, copy ⟨3⟩, g, horder, ?_, hlast⟩
    rw [hcopies ⟨3⟩ (by simp), htargets]
  · cases hunwound

end Edit

end LoopInduction
