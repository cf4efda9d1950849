import LoopInduction.Proofs.Execution
import LoopInduction.Proofs.Loop.Unwinding

/-!
# Unwinding keeps the executions of a loop that is always closed

If the exit of a loop always jumps back to the head, and nowhere else, then unwinding the loop once
changes no trace (`Edit.traces_duplicateBody`). An instruction of the body stands for itself and for
its copy. Falling from the end of the body into the copy is a trip over the jump back, and where the
copy has lost its skips the original passes through them; so control in the old program is *matched*
by control in the new one if it is led on, without a trace, to something that stands for the latter
(`Unwound.Matched`). Steps of either program keep control matched.

## Main definitions

* `Unwound.Matched` : control in the two programs is at the same point of an execution.

## Main results

* `Edit.traces_duplicateBody` : unwinding such a loop succeeds and keeps all traces.
-/

namespace LoopInduction

namespace Unwound

variable {σ : Type*} {m : Machine σ} {p q : Program} {head exit behind marker x y : InstrId}
  {body : List InstrId} {builder : GuardBuilder} {copy : InstrId → InstrId}
  {guard : Option InstrId} {c d : Option InstrId}

/-- What an instruction of the old program is in the new one: itself, and its copy if it has one. -/
inductive Stands (p : Program) (body : List InstrId) (copy : InstrId → InstrId) :
    InstrId → InstrId → Prop
  | old {x : InstrId} : x ∈ p.order → Stands p body copy x x
  | copy {x : InstrId} : x ∈ p.kept body → Stands p body copy x (copy x)

/-- Control in the old program is led on to what control in the new program stands for. -/
inductive Matched (p : Program) (body : List InstrId) (copy : InstrId → InstrId) :
    Option InstrId → Option InstrId → Prop
  | ended : Matched p body copy none none
  | led {x x₀ y : InstrId} : p.Leads x x₀ → Stands p body copy x₀ y →
      Matched p body copy (some x) (some y)

theorem Matched.refl (h : ∀ x ∈ c, x ∈ p.order) : Matched p body copy c c := by
  cases c with
  | none => exact .ended
  | some x => exact .led .refl (.old (h x rfl))

theorem Matched.of_leads {z : InstrId} (hx : p.Leads x z) (h : Matched p body copy (some z) d) :
    Matched p body copy (some x) d := by
  cases h with
  | led hz hs => exact .led (hx.trans hz) hs

/-- A loop whose exit always jumps back to the head, with a body that holds no scaffolding. -/
structure AlwaysClosed (p : Program) (head exit : InstrId) (body : List InstrId) : Prop where
  range : p.range head exit = .ok body
  ne_nil : body ≠ []
  isScaffold : ∀ u ∈ body, (p.fetch u).isScaffold = false
  isAlwaysTaken : (p.fetch exit).isAlwaysTaken = true
  targets : (p.fetch exit).targets = [head]

namespace AlwaysClosed

variable (hl : AlwaysClosed p head exit body)

include hl

theorem exit_mem : exit ∈ p.order :=
  (Program.range_eq_ok hl.range).2.1

theorem leads_head : p.Leads exit head := by
  obtain ⟨x, hx⟩ := Program.mem_order_iff_get?.1 hl.exit_mem
  have htaken := hl.isAlwaysTaken
  have htargets := hl.targets
  rw [Program.fetch_eq hx] at htaken htargets
  exact .single (.inr ⟨x, hx, htaken, htargets⟩)

/-- From any point of the body control is led on to the next instruction that has a copy, or to the
exit. -/
theorem matched_rest {b₁ b₂ : List InstrId} (hbody : body = b₁ ++ b₂)
    (hx : (b₂ ++ [exit]).head? = some x) :
    Matched p body copy (some x) (some (p.firstCopy exit copy b₂)) := by
  have horder : p.order = (p.order.take (p.position head) ++ b₁) ++ b₂ ++
      exit :: p.order.drop (p.position exit + 1) := by
    simpa only [hbody, List.append_assoc] using Program.order_of_range hl.range
  have hleads := Program.leads_find? horder
    (f := fun u ↦ !(p.fetch u).isSkip) (fun y _ hy ↦ by simpa using hy) hx
  rw [Program.firstCopy]
  cases hfind : b₂.find? fun u ↦ !(p.fetch u).isSkip with
  | none =>
    rw [hfind] at hleads
    exact .led hleads (.old hl.exit_mem)
  | some k =>
    rw [hfind] at hleads
    have hk : k ∈ body := hbody ▸ List.mem_append_right b₁ (List.mem_of_find?_eq_some hfind)
    exact .led hleads (.copy (Program.mem_kept.2 ⟨Program.mem_copied.2 ⟨hk, hl.isScaffold k hk⟩,
      by simpa using List.find?_some hfind⟩))

/-- The jump back of the old program is the fall into the copy of the new one. -/
theorem matched_exit : Matched p body copy (some exit) (some (p.firstCopy exit copy body)) :=
  (hl.matched_rest (List.nil_append body).symm
    (Program.head?_of_range_append hl.range)).of_leads hl.leads_head

theorem matched_copyTarget {t : InstrId} (ht : t ∈ p.order) :
    Matched p body copy (some t) (some (p.copyTarget (p.copied body) exit copy t)) := by
  rw [Program.copied_eq_self hl.isScaffold]
  by_cases htb : t ∈ body
  · obtain ⟨b₁, b₂, rfl, htb₁⟩ := List.eq_append_cons_of_mem htb
    rw [Program.copyTarget_of_append htb₁]
    exact hl.matched_rest rfl rfl
  · rw [Program.copyTarget_of_notMem htb]
    exact .led .refl (.old ht)

end AlwaysClosed

/-- A copy does what the original does, and jumps to the copy of where the original jumps to. -/
theorem exists_get?_copy (h : Unwound p q body exit behind builder copy guard marker)
    (hrange : p.range head exit = .ok body) (hx : x ∈ p.kept body) :
    ∃ i j, p.get? x = some i ∧ q.get? (copy x) = some j ∧
      j.emitted Instruction.isSilent = i.emitted Instruction.isSilent ∧
      ∀ s f s', m.Acts j s f s' ↔
        ∃ f', m.Acts i s f' s' ∧ f'.map (p.copyTarget (p.copied body) exit copy) = f := by
  obtain ⟨ts, hget, hts⟩ := h.get?_copy x hx
  have hxp : x ∈ p.order :=
    ((Program.mem_range_iff hrange).1 (Program.mem_copied.1 (Program.mem_kept.1 hx).1).1).1
  exact ⟨_, _, Program.get?_eq_some_fetch hxp, hget, Instruction.emitted_duplicate _ ts,
    fun _ _ _ ↦ Machine.acts_iff_of_targets rfl rfl rfl hts⟩

section Simulation

variable (hl : AlwaysClosed p head exit body)
  (h : Unwound p q body exit behind builder copy guard marker)

include hl h

/-- Falling through keeps control matched, for instructions that were there before. -/
theorem matched_next (hx : x ∈ p.order) (hne : x ≠ exit) :
    Matched p body copy (p.next? x) (q.next? x) := by
  rw [h.next?_old hl.isScaffold hx hne]
  split
  · next hnext =>
    rw [hnext]
    exact hl.matched_exit
  · exact .refl fun y hy ↦ Program.mem_of_next? hy

/-- Falling through a copy is falling through the original, and through the skips behind it. -/
theorem matched_next_copy (hx : x ∈ p.kept body) :
    Matched p body copy (p.next? x) (q.next? (copy x)) := by
  obtain ⟨hxb, hskip⟩ := Program.mem_kept.1 hx
  obtain ⟨b₁, b₂, rfl, -⟩ := List.eq_append_cons_of_mem (Program.mem_copied.1 hxb).1
  have hnext := Program.next?_of_range hl.range
  rw [h.next?_copy hl.isScaffold hskip, hnext]
  obtain ⟨z, hz⟩ : ∃ z, (b₂ ++ [exit]).head? = some z := by cases b₂ <;> simp
  rw [hz]
  exact hl.matched_rest (List.append_cons b₁ x b₂) hz

variable (hlive : p.TargetsLive)

include hlive

/-- Handing on control from an instruction that was there before keeps it matched. -/
theorem matched_follow {i : Instruction} {f : Flow} {s s' : σ} (hi : p.get? x = some i)
    (ha : m.Acts i s f s') : Matched p body copy (p.follow x f) (q.follow x f) := by
  have hx := Program.mem_of_get? hi
  cases f with
  | stop => exact .ended
  | jump t =>
    cases ha with
    | jump _ _ ht => exact .led .refl (.old (hlive x i hi t ht))
  | fall =>
    refine h.matched_next hl hx fun e ↦ ?_
    -- the exit never falls through
    have htaken := hl.isAlwaysTaken
    rw [← e, Program.fetch_eq hi] at htaken
    obtain ⟨-, t, -, hflow⟩ := ha.of_isAlwaysTaken htaken
    cases hflow

/-- Handing on control from a copy keeps it matched. -/
theorem matched_follow_copy {i : Instruction} {f : Flow} {s s' : σ} (hx : x ∈ p.kept body)
    (hi : p.get? x = some i) (ha : m.Acts i s f s') :
    Matched p body copy (p.follow x f)
      (q.follow (copy x) (f.map (p.copyTarget (p.copied body) exit copy))) := by
  cases f with
  | stop => exact .ended
  | jump t =>
    cases ha with
    | jump _ _ ht => exact hl.matched_copyTarget (hlive x i hi t ht)
  | fall => exact h.matched_next_copy hl hx

theorem simulates_old (m : Machine σ) :
    Program.Simulates m Instruction.isSilent p q (Matched p body copy) := by
  intro c y i f s s' hR hi ha
  cases hR with
  | @led x x₀ _ hleads hstands =>
    cases hstands with
    | old hy =>
      rw [h.get?_old _ hy] at hi
      exact ⟨_, (hleads.run m s).trans (.single _ hi ha), h.matched_follow hl hlive hi ha⟩
    | copy hx₀ =>
      obtain ⟨j, k, hj, hk, hemit, hacts⟩ := h.exists_get?_copy (m := m) hl.range hx₀
      cases hi.symm.trans hk
      obtain ⟨f', ha', rfl⟩ := (hacts _ _ _).1 ha
      rw [hemit]
      exact ⟨_, (hleads.run m s).trans (.single _ hj ha'),
        h.matched_follow_copy hl hlive hx₀ hj ha'⟩

theorem simulates_new (m : Machine σ) :
    Program.Simulates m Instruction.isSilent q p (Function.swap (Matched p body copy)) := by
  intro d x i f s s' hR hi ha
  cases hR with
  | @led _ x₀ y hleads hstands =>
    rcases Relation.ReflTransGen.cases_head hleads with rfl | ⟨z, hxz, hz⟩
    · cases hstands with
      | old hx =>
        have hget : q.get? x = some i := (h.get?_old x hx).trans hi
        exact ⟨_, .single _ hget ha, h.matched_follow hl hlive hi ha⟩
      | copy hx =>
        obtain ⟨j, k, hj, hk, hemit, hacts⟩ := h.exists_get?_copy (m := m) hl.range hx
        cases hi.symm.trans hj
        rw [← hemit]
        exact ⟨_, .single _ hk ((hacts _ _ _).2 ⟨f, ha, rfl⟩),
          h.matched_follow_copy hl hlive hx hi ha⟩
    · -- the old program passes on to what the new one is at
      obtain ⟨hemit, hfollow, rfl⟩ := hxz.of_acts hi ha
      rw [hemit, hfollow]
      exact ⟨some y, .nil _ _, .led hz hstands⟩

end Simulation

end Unwound

namespace Edit

variable {p : Program} {head exit : InstrId} {body : List InstrId}

/-- A loop with a body that holds no scaffolding, whose exit always jumps back to the head and does
not end the function, is unwound, and from every instruction that was there before and every state
the program has the same traces as before. -/
theorem traces_duplicateBody (builder : GuardBuilder) (hlive : p.TargetsLive)
    (hrange : p.range head exit = .ok body) (hne : body ≠ [])
    (hscaffold : ∀ u ∈ body, (p.fetch u).isScaffold = false)
    (htaken : (p.fetch exit).isAlwaysTaken = true) (htargets : (p.fetch exit).targets = [head])
    (hlast : p.last? ≠ some exit) :
    ∃ pts q, (duplicateBody head exit builder).run p = .ok pts q ∧
      ∀ {σ : Type*} (m : Machine σ) (s : σ), ∀ x ∈ p.order,
        q.traces m Instruction.isSilent x s = p.traces m Instruction.isSilent x s ∧
          q.completeTraces m Instruction.isSilent x s =
            p.completeTraces m Instruction.isSilent x s := by
  have hl : Unwound.AlwaysClosed p head exit body := ⟨hrange, hne, hscaffold, htaken, htargets⟩
  obtain ⟨behind, hbehind⟩ : ∃ behind, p.next? exit = some behind :=
    Option.ne_none_iff_exists'.1 fun h ↦ hlast ((Program.next?_eq_none_iff_last? hl.exit_mem).1 h)
  obtain ⟨copy, guard, pts, q, hrun, h, -⟩ := run_duplicateBody builder hlive hrange hne hbehind
    fun u _ t _ ht ↦ by rwa [Program.copied_eq_self hl.isScaffold]
  refine ⟨pts, q, hrun, fun m s x hx ↦ ?_⟩
  refine Program.traces_eq_of_simulates (h.simulates_old hl hlive m) (h.simulates_new hl hlive m)
    (fun c d hcd ↦ ?_) (.led .refl (.old hx))
  cases hcd <;> simp

/-- A loop that is left by a jump out of it and closed by one that is always taken. -/
def closedLoop : Program :=
  .ofList [.goto ⟨4⟩ (.var ⟨"done", .bool⟩), .skip, .assert (.var ⟨"safe", .bool⟩),
    .goto ⟨0⟩ (.bool true), .endFunction]

theorem traces_duplicateBody_closedLoop :
    ∃ pts q, (duplicateBody ⟨0⟩ ⟨3⟩ .simplifying).run closedLoop = .ok pts q ∧
      ∀ {σ : Type} (m : Machine σ) (s : σ), ∀ x ∈ closedLoop.order,
        q.traces m Instruction.isSilent x s = closedLoop.traces m Instruction.isSilent x s ∧
          q.completeTraces m Instruction.isSilent x s =
            closedLoop.completeTraces m Instruction.isSilent x s := by
  have hrange : closedLoop.range ⟨0⟩ ⟨3⟩ = .ok [⟨0⟩, ⟨1⟩, ⟨2⟩] := by decide
  exact traces_duplicateBody .simplifying (Program.targetsLive_iff.2 (by decide)) hrange
    (by decide) (by decide) (by decide) (by decide) (by decide)

end Edit

end LoopInduction
