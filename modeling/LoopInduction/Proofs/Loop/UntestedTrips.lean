import LoopInduction.Proofs.Loop.UnwindingTraces

/-!
# Trips round a loop without its test

Unwinding puts the copy of a body in front of the exit of the loop. What falls off the body goes
round the loop a second time before it comes to the exit, whether or not the jump back would have
been taken there. On the second trip what falls off the body comes to the exit, and what leaves the
body by a jump is on its first trip again. These are the executions of the unwound program
(`Edit.traces_duplicateBody_eq_tripTraces`). If the jump back is not always taken, some of them may
not be executions of the old program. Where nothing falls to the exit, for example because the body
ends in a jump that is always taken, there is no second trip, and unwinding changes no trace.

## Main definitions

* `Program.TripRun` : the executions that go round a loop a second time before its exit.
* `Unwound.OnTrip` : where control is in such an execution when it is somewhere in the unwound
  program.

## Main results

* `Edit.traces_duplicateBody_eq_tripTraces` : the executions of an unwound loop.
-/

namespace LoopInduction

/-- Whether control is on its way round a loop for the second time without the test of the exit. -/
inductive Trip
  | first
  | second

namespace Program

variable {σ : Type*} {m : Machine σ} {hidden : Instruction → Bool} {p : Program}
  {head exit x y : InstrId} {i : Instruction} {f : Flow} {s s' : σ} {τ τ' : List Event}

/-- Control stays on the second trip as long as it is in the body. -/
def onTrip (p : Program) (head exit : InstrId) : Trip → InstrId → Trip × InstrId
  | .first, y => (.first, y)
  | .second, y =>
    if p.position head ≤ p.position y ∧ p.position y < p.position exit then (.second, y)
    else (.first, y)

/-- Where control is after an instruction. What falls to the exit on the first trip goes to the head
instead, for the second trip. -/
def tripFollow (p : Program) (head exit : InstrId) : Trip × InstrId → Flow →
    Option (Trip × InstrId)
  | _, .stop => none
  | (t, _), .jump y => some (p.onTrip head exit t y)
  | (.first, x), .fall =>
    if p.next? x = some exit then some (.second, head) else (p.next? x).map (.first, ·)
  | (.second, x), .fall => (p.next? x).map (p.onTrip head exit .second)

/-- Where control is on a second trip that has some of the body ahead of it. -/
def ahead (exit : InstrId) : List InstrId → Trip × InstrId
  | [] => (.first, exit)
  | z :: _ => (.second, z)

/-- An execution that goes round the loop a second time before it comes to the exit by a fall. -/
inductive TripRun (m : Machine σ) (hidden : Instruction → Bool) (p : Program)
    (head exit : InstrId) :
    Option (Trip × InstrId) → σ → List Event → Option (Trip × InstrId) → σ → Prop
  | nil (c : Option (Trip × InstrId)) (s : σ) : TripRun m hidden p head exit c s [] c s
  | cons {t : Trip} {x : InstrId} {i : Instruction} {f : Flow} {c : Option (Trip × InstrId)}
      {s s' s'' : σ} {τ : List Event} : p.get? x = some i → m.Acts i s f s' →
      TripRun m hidden p head exit (p.tripFollow head exit (t, x) f) s' τ c s'' →
      TripRun m hidden p head exit (some (t, x)) s (i.emitted hidden ++ τ) c s''

/-- The traces of the executions with second trips, from an instruction on the first one. -/
def tripTraces (m : Machine σ) (hidden : Instruction → Bool) (p : Program) (head exit x : InstrId)
    (s : σ) : Set (List Event) :=
  {τ | ∃ c s', p.TripRun m hidden head exit (some (.first, x)) s τ c s'}

/-- The traces of those of these executions that have come to an end. -/
def completeTripTraces (m : Machine σ) (hidden : Instruction → Bool) (p : Program)
    (head exit x : InstrId) (s : σ) : Set (List Event) :=
  {τ | ∃ s', p.TripRun m hidden head exit (some (.first, x)) s τ none s'}

section

variable {t : Trip} {c c' c'' : Option (Trip × InstrId)} {s'' : σ}

theorem TripRun.single (hidden : Instruction → Bool) (hi : p.get? x = some i)
    (h : m.Acts i s f s') : p.TripRun m hidden head exit (some (t, x)) s (i.emitted hidden)
      (p.tripFollow head exit (t, x) f) s' := by
  have hrun : p.TripRun m hidden head exit (some (t, x)) s (i.emitted hidden ++ [])
      (p.tripFollow head exit (t, x) f) s' := .cons hi h (.nil _ _)
  rwa [List.append_nil] at hrun

theorem TripRun.trans (h : p.TripRun m hidden head exit c s τ c' s')
    (h' : p.TripRun m hidden head exit c' s' τ' c'' s'') :
    p.TripRun m hidden head exit c s (τ ++ τ') c'' s'' := by
  induction h with
  | nil => exact h'
  | cons hi ha _ ih =>
    rw [List.append_assoc]
    exact .cons hi ha (ih h')

end

/-! ### Loops to whose exit nothing falls -/

section

variable (hfalls : ∀ u ∈ p.order, p.next? u = some exit →
  (p.fetch u).isStop = true ∨ (p.fetch u).isAlwaysTaken = true)

include hfalls

/-- If nothing falls to the exit, control stays on the first trip. -/
theorem tripFollow_first (hi : p.get? x = some i) (ha : m.Acts i s f s') :
    p.tripFollow head exit (.first, x) f = (p.follow x f).map (.first, ·) := by
  cases f with
  | stop => rfl
  | jump y => rfl
  | fall =>
    rw [tripFollow, if_neg fun hnext ↦ ?_, follow]
    have hleaves := hfalls x (mem_of_get? hi) hnext
    rw [fetch_eq hi] at hleaves
    rcases hleaves with hstop | htaken
    · exact Flow.noConfusion (ha.of_isStop hstop)
    · obtain ⟨-, y, -, hflow⟩ := ha.of_isAlwaysTaken htaken
      exact Flow.noConfusion hflow

/-- If nothing falls to the exit, the executions with second trips are those of the program. -/
theorem tripRun_first_iff {c : Option InstrId} {d : Option (Trip × InstrId)} :
    p.TripRun m hidden head exit (c.map (.first, ·)) s τ d s' ↔
      ∃ c', d = c'.map (.first, ·) ∧ p.Run m hidden c s τ c' s' := by
  constructor
  · intro h
    generalize hc : c.map (Trip.first, ·) = c₀ at h
    induction h generalizing c with
    | nil => exact ⟨c, hc.symm, .nil _ _⟩
    | cons hi ha _ ih =>
      obtain ⟨x, rfl, hx⟩ := Option.map_eq_some_iff.1 hc
      cases hx
      obtain ⟨c', rfl, hrun⟩ := ih (tripFollow_first hfalls hi ha).symm
      exact ⟨c', rfl, .cons hi ha hrun⟩
  · rintro ⟨c', rfl, h⟩
    induction h with
    | nil => exact .nil _ _
    | cons hi ha _ ih =>
      rw [← tripFollow_first hfalls hi ha] at ih
      exact .cons hi ha ih

/-- If nothing falls to the exit, going round a second time makes no difference. -/
theorem tripTraces_eq : p.tripTraces m hidden head exit x s = p.traces m hidden x s ∧
    p.completeTripTraces m hidden head exit x s = p.completeTraces m hidden x s := by
  have hiff : ∀ τ d s', p.TripRun m hidden head exit (some (.first, x)) s τ d s' ↔
      ∃ c', d = c'.map (.first, ·) ∧ p.Run m hidden (some x) s τ c' s' :=
    fun τ d s' ↦ tripRun_first_iff (c := some x) hfalls
  refine ⟨Set.ext fun τ ↦ ⟨?_, ?_⟩, Set.ext fun τ ↦ ⟨?_, ?_⟩⟩
  · rintro ⟨d, s', htrip⟩
    obtain ⟨c', -, hrun⟩ := (hiff τ d s').1 htrip
    exact ⟨c', s', hrun⟩
  · rintro ⟨c', s', hrun⟩
    exact ⟨_, s', (hiff τ _ s').2 ⟨c', rfl, hrun⟩⟩
  · rintro ⟨s', htrip⟩
    obtain ⟨c', hc', hrun⟩ := (hiff τ none s').1 htrip
    cases Option.map_eq_none_iff.1 hc'.symm
    exact ⟨s', hrun⟩
  · rintro ⟨s', hrun⟩
    exact ⟨s', (hiff τ none s').2 ⟨none, rfl, hrun⟩⟩

end

end Program

namespace Unwound

variable {σ : Type*} {m : Machine σ} {p q : Program} {head exit behind marker x y : InstrId}
  {body b₁ b₂ : List InstrId} {builder : GuardBuilder} {copy : InstrId → InstrId}
  {guard : Option InstrId} {i : Instruction} {f : Flow} {s s' : σ} {τ : List Event}
  {c c' : Option (Trip × InstrId)} {d d' : Option InstrId}

/-- Control in an execution with second trips, and control in the unwound program. On a second trip
control there is at the next copy, or at the exit. What the unwinding wrote behind the exit stands
for what was there before. -/
inductive OnTrip (p : Program) (exit behind : InstrId) (body : List InstrId)
    (copy : InstrId → InstrId) (tail : List InstrId) :
    Option (Trip × InstrId) → Option InstrId → Prop
  | ended : OnTrip p exit behind body copy tail none none
  | first {x : InstrId} : x ∈ p.order →
      OnTrip p exit behind body copy tail (some (.first, x)) (some x)
  | passed {y : InstrId} : y ∈ tail →
      OnTrip p exit behind body copy tail (some (.first, behind)) (some y)
  | second {b₁ b₂ : List InstrId} {x : InstrId} : body = b₁ ++ x :: b₂ →
      OnTrip p exit behind body copy tail (some (.second, x))
        (some (p.firstCopy exit copy (x :: b₂)))

section

variable {tail : List InstrId} (hrange : p.range head exit = .ok body)

include hrange

theorem onTrip_of_mem (hy : y ∈ body) : p.onTrip head exit .second y = (.second, y) :=
  if_pos ((Program.mem_range_iff hrange).1 hy).2

theorem onTrip_of_notMem (hy : y ∉ body) : p.onTrip head exit .second y = (.first, y) := by
  refine if_neg fun hin ↦ hy ((Program.mem_range_iff hrange).2 ⟨?_, hin⟩)
  have := Program.position_lt_iff.2 (Program.range_eq_ok hrange).2.1
  exact Program.position_lt_iff.1 (by omega)

/-- On a second trip control falls to what is ahead of it. -/
theorem tripFollow_second (hbody : body = b₁ ++ x :: b₂) :
    p.tripFollow head exit (.second, x) .fall = some (Program.ahead exit b₂) := by
  rw [Program.tripFollow, Program.next?_of_range (hbody ▸ hrange)]
  cases b₂ with
  | nil => exact congrArg some (onTrip_of_notMem hrange (Program.notMem_of_range hrange))
  | cons z b₂ => exact congrArg some (onTrip_of_mem hrange (by simp [hbody]))

theorem onTrip_ahead (hbody : body = b₁ ++ b₂) : OnTrip p exit behind body copy tail
    (some (Program.ahead exit b₂)) (some (p.firstCopy exit copy b₂)) := by
  cases b₂ with
  | nil => exact .first (Program.range_eq_ok hrange).2.1
  | cons z b₂ => exact .second hbody

/-- On a second trip jumps go to the copy, or out of the loop. -/
theorem onTrip_jump (hy : y ∈ p.order) :
    OnTrip p exit behind body copy tail (p.tripFollow head exit (.second, x) (.jump y))
      (some (p.copyTarget body exit copy y)) := by
  rw [Program.tripFollow]
  by_cases hyb : y ∈ body
  · obtain ⟨b₁, b₂, hbody, hyb₁⟩ := List.eq_append_cons_of_mem hyb
    rw [onTrip_of_mem hrange hyb, hbody, Program.copyTarget_of_append hyb₁]
    exact .second rfl
  · rw [onTrip_of_notMem hrange hyb, Program.copyTarget_of_notMem hyb]
    exact .first hy

/-- A second trip begins at the head, and in the copy. -/
theorem onTrip_head (hne : body ≠ []) : OnTrip p exit behind body copy tail
    (some (.second, head)) (some (p.firstCopy exit copy body)) := by
  obtain ⟨b₂, hbody⟩ := List.head?_eq_some_iff.1 (Program.head?_of_range hrange hne)
  have hahead : Program.ahead exit body = (.second, head) := by rw [hbody, Program.ahead]
  rw [← hahead]
  exact onTrip_ahead hrange (List.nil_append body).symm

/-- A skip leads on to what is ahead. -/
theorem tripRun_skip (m : Machine σ) (s : σ) (hbody : body = b₁ ++ x :: b₂)
    (hskip : (p.fetch x).isSkip = true) :
    p.TripRun m Instruction.isSilent head exit (some (.second, x)) s []
      (some (Program.ahead exit b₂)) s := by
  have hx : x ∈ p.order := ((Program.mem_range_iff hrange).1 (by simp [hbody])).1
  have hsilent : (p.fetch x).emitted Instruction.isSilent = [] :=
    Instruction.emitted_of_hidden (by simp [Instruction.isSilent, hskip])
  rw [← tripFollow_second hrange hbody, ← hsilent]
  exact .single _ (Program.get?_eq_some_fetch hx) (.skip hskip)

/-- On a second trip control passes the skips, and comes to an instruction that has a copy or to
the exit. -/
theorem tripRun_ahead (m : Machine σ) (s : σ) (hbody : body = b₁ ++ b₂) :
    ∃ b₀ b₃, body = b₀ ++ b₃ ∧ (∀ z ∈ b₃.head?, (p.fetch z).isSkip = false) ∧
      p.firstCopy exit copy b₂ = p.firstCopy exit copy b₃ ∧
      p.TripRun m Instruction.isSilent head exit (some (Program.ahead exit b₂)) s []
        (some (Program.ahead exit b₃)) s := by
  induction b₂ generalizing b₁ with
  | nil => exact ⟨b₁, [], hbody, by simp, rfl, .nil _ s⟩
  | cons x b₂ ih =>
    cases hskip : (p.fetch x).isSkip with
    | false => exact ⟨b₁, x :: b₂, hbody, by simpa using hskip, rfl, .nil _ s⟩
    | true =>
      obtain ⟨b₀, b₃, hb₃, hhead, hfirst, hrun⟩ := ih (hbody.trans (List.append_cons b₁ x b₂))
      refine ⟨b₀, b₃, hb₃, hhead, ?_, (tripRun_skip hrange m s hbody hskip).trans hrun⟩
      rw [Program.firstCopy_cons, if_pos hskip, hfirst]

end

/-- What is ahead of control on a second trip and is no skip has a copy. -/
theorem mem_kept_of_append (hscaffold : ∀ u ∈ body, (p.fetch u).isScaffold = false)
    (hbody : body = b₁ ++ x :: b₂) (hskip : (p.fetch x).isSkip = false) : x ∈ p.kept body := by
  have hx : x ∈ body := by simp [hbody]
  exact Program.mem_kept.2 ⟨Program.mem_copied.2 ⟨hx, hscaffold x hx⟩, hskip⟩

/-- What the unwinding wrote behind the exit leads to what was there before. -/
theorem leads_behind (h : Unwound p q body exit behind builder copy guard marker)
    (htruth : builder.truth = .bool true) (hy : y ∈ guard.toList ++ [marker]) :
    q.Leads₁ y behind := by
  rw [List.mem_append, Option.mem_toList, List.mem_singleton] at hy
  rcases hy with hy | rfl
  · refine .inr ⟨_, h.get?_guard y hy, ?_, rfl⟩
    rw [htruth]
    rfl
  · exact .inl ⟨_, h.get?_marker, rfl, h.next?_marker⟩

theorem behind_mem (h : Unwound p q body exit behind builder copy guard marker) :
    behind ∈ p.order :=
  Program.mem_of_next? h.next

section Simulation

variable (hrange : p.range head exit = .ok body)
  (hscaffold : ∀ u ∈ body, (p.fetch u).isScaffold = false) (hlive : p.TargetsLive)
  (h : Unwound p q body exit behind builder copy guard marker)

include hrange hscaffold hlive h

/-- Where an instruction hands on control on a second trip, and where its copy does. -/
theorem onTrip_copy (hbody : body = b₁ ++ x :: b₂) (hskip : (p.fetch x).isSkip = false)
    (hi : p.get? x = some i) (ha : m.Acts i s f s') :
    OnTrip p exit behind body copy (guard.toList ++ [marker])
      (p.tripFollow head exit (.second, x) f)
      (q.follow (copy x) (f.map (p.copyTarget (p.copied body) exit copy))) := by
  cases f with
  | stop => exact .ended
  | jump y =>
    rw [Program.copied_eq_self hscaffold]
    cases ha with
    | jump _ _ hy => exact onTrip_jump hrange (hlive x i hi y hy)
  | fall =>
    subst hbody
    rw [tripFollow_second hrange rfl, Flow.map, Program.follow, h.next?_copy hscaffold hskip]
    exact onTrip_ahead hrange (List.append_cons b₁ x b₂)

variable (hne : body ≠ [])

include hne

/-- Where an instruction that was there before hands on control on the first trip. -/
theorem onTrip_old (hi : p.get? x = some i) (ha : m.Acts i s f s') :
    OnTrip p exit behind body copy (guard.toList ++ [marker])
      (p.tripFollow head exit (.first, x) f) (q.follow x f) := by
  cases f with
  | stop => exact .ended
  | jump y =>
    cases ha with
    | jump _ _ hy => exact .first (hlive x i hi y hy)
  | fall =>
    rw [Program.tripFollow, Program.follow]
    by_cases he : x = exit
    · obtain ⟨y, hy⟩ : ∃ y, (guard.toList ++ [marker]).head? = some y := by cases guard <;> simp
      have hbehind : behind ≠ exit := fun e ↦ by
        obtain ⟨-, -, hpos⟩ := Program.next?_eq_some_iff.1 h.next
        rw [e] at hpos
        omega
      rw [he, h.next, if_neg fun e ↦ hbehind (Option.some.inj e), h.next?_exit, hy]
      exact .passed (List.mem_of_head? hy)
    · rw [h.next?_old hscaffold (Program.mem_of_get? hi) he]
      split
      · exact onTrip_head hrange hne
      · cases hnext : p.next? x with
        | none => exact .ended
        | some y => exact .first (Program.mem_of_next? hnext)

variable (htruth : builder.truth = .bool true)

include htruth

/-- Every step of the unwound program is an execution with second trips. -/
theorem tripRun_of_step (hR : OnTrip p exit behind body copy (guard.toList ++ [marker]) c (some y))
    (hi : q.get? y = some i) (ha : m.Acts i s f s') :
    ∃ c', p.TripRun m Instruction.isSilent head exit c s (i.emitted Instruction.isSilent) c' s' ∧
      OnTrip p exit behind body copy (guard.toList ++ [marker]) c' (q.follow y f) := by
  cases hR with
  | first hx =>
    rw [h.get?_old y hx] at hi
    exact ⟨_, .single _ hi ha, h.onTrip_old hrange hscaffold hlive hne hi ha⟩
  | passed hy =>
    obtain ⟨hemit, hfollow, rfl⟩ := (h.leads_behind htruth hy).of_acts hi ha
    rw [hemit, hfollow]
    exact ⟨_, .nil _ _, .first h.behind_mem⟩
  | second hbody =>
    -- the copy has no skips, so the execution of the old program passes them first
    obtain ⟨b₀, b₃, hb₃, hhead, hfirst, hrun⟩ := tripRun_ahead hrange m s hbody
    rw [hfirst] at hi ⊢
    cases b₃ with
    | nil =>
      rw [Program.firstCopy_nil] at hi ⊢
      rw [h.get?_old _ h.exit_mem] at hi
      exact ⟨_, hrun.trans (.single _ hi ha), h.onTrip_old hrange hscaffold hlive hne hi ha⟩
    | cons z b₃ =>
      have hskip := hhead z rfl
      rw [Program.firstCopy_cons, if_neg (by simp [hskip])] at hi ⊢
      obtain ⟨j, k, hj, hk, hemit, hacts⟩ := h.exists_get?_copy (m := m) hrange
        (mem_kept_of_append hscaffold hb₃ hskip)
      cases hi.symm.trans hk
      obtain ⟨f', ha', rfl⟩ := (hacts _ _ _).1 ha
      rw [hemit]
      exact ⟨_, hrun.trans (.single _ hj ha'),
        h.onTrip_copy hrange hscaffold hlive hb₃ hskip hj ha'⟩

/-- Every step of an execution with second trips is an execution of the unwound program. -/
theorem run_of_tripStep {t : Trip}
    (hR : OnTrip p exit behind body copy (guard.toList ++ [marker]) (some (t, x)) d)
    (hi : p.get? x = some i) (ha : m.Acts i s f s') :
    ∃ d', q.Run m Instruction.isSilent d s (i.emitted Instruction.isSilent) d' s' ∧
      OnTrip p exit behind body copy (guard.toList ++ [marker])
        (p.tripFollow head exit (t, x) f) d' := by
  cases hR with
  | first hx =>
    have hget : q.get? x = some i := (h.get?_old x hx).trans hi
    exact ⟨_, .single _ hget ha, h.onTrip_old hrange hscaffold hlive hne hi ha⟩
  | passed hy =>
    have hget : q.get? behind = some i := (h.get?_old behind h.behind_mem).trans hi
    exact ⟨_, ((h.leads_behind htruth hy).run m s).trans (.single _ hget ha),
      h.onTrip_old hrange hscaffold hlive hne hi ha⟩
  | @second b₁ b₂ _ hbody =>
    rw [Program.firstCopy_cons]
    cases hskip : (p.fetch x).isSkip with
    | true =>
      rw [Program.fetch_eq hi] at hskip
      obtain ⟨rfl, rfl⟩ := ha.of_isSkip hskip
      rw [Instruction.emitted_of_hidden (by simp [Instruction.isSilent, hskip]),
        tripFollow_second hrange hbody]
      exact ⟨_, .nil _ _, onTrip_ahead hrange (hbody.trans (List.append_cons b₁ x b₂))⟩
    | false =>
      obtain ⟨j, k, hj, hk, hemit, hacts⟩ := h.exists_get?_copy (m := m) hrange
        (mem_kept_of_append hscaffold hbody hskip)
      cases hi.symm.trans hj
      rw [← hemit]
      exact ⟨_, .single _ hk ((hacts _ _ _).2 ⟨f, ha, rfl⟩),
        h.onTrip_copy hrange hscaffold hlive hbody hskip hi ha⟩

/-- Every execution of the unwound program is one with second trips. -/
theorem tripRun_of_run (hR : OnTrip p exit behind body copy (guard.toList ++ [marker]) c d)
    (hrun : q.Run m Instruction.isSilent d s τ d' s') :
    ∃ c', p.TripRun m Instruction.isSilent head exit c s τ c' s' ∧
      OnTrip p exit behind body copy (guard.toList ++ [marker]) c' d' := by
  induction hrun generalizing c with
  | nil => exact ⟨c, .nil _ _, hR⟩
  | cons hi ha _ ih =>
    obtain ⟨c₁, hrun₁, hR₁⟩ := h.tripRun_of_step hrange hscaffold hlive hne htruth hR hi ha
    obtain ⟨c₂, hrun₂, hR₂⟩ := ih hR₁
    exact ⟨c₂, hrun₁.trans hrun₂, hR₂⟩

/-- Every execution with second trips is one of the unwound program. -/
theorem run_of_tripRun (hR : OnTrip p exit behind body copy (guard.toList ++ [marker]) c d)
    (hrun : p.TripRun m Instruction.isSilent head exit c s τ c' s') :
    ∃ d', q.Run m Instruction.isSilent d s τ d' s' ∧
      OnTrip p exit behind body copy (guard.toList ++ [marker]) c' d' := by
  induction hrun generalizing d with
  | nil => exact ⟨d, .nil _ _, hR⟩
  | cons hi ha _ ih =>
    obtain ⟨d₁, hrun₁, hR₁⟩ := h.run_of_tripStep hrange hscaffold hlive hne htruth hR hi ha
    obtain ⟨d₂, hrun₂, hR₂⟩ := ih hR₁
    exact ⟨d₂, hrun₁.trans hrun₂, hR₂⟩

/-- The unwound program has the traces of the executions with second trips. -/
theorem traces_eq_tripTraces (hx : x ∈ p.order) :
    q.traces m Instruction.isSilent x s = p.tripTraces m Instruction.isSilent head exit x s ∧
      q.completeTraces m Instruction.isSilent x s =
        p.completeTripTraces m Instruction.isSilent head exit x s := by
  have hstart : OnTrip p exit behind body copy (guard.toList ++ [marker])
      (some (.first, x)) (some x) := .first hx
  refine ⟨Set.ext fun τ ↦ ⟨?_, ?_⟩, Set.ext fun τ ↦ ⟨?_, ?_⟩⟩
  · rintro ⟨d, s', hrun⟩
    obtain ⟨c, htrip, -⟩ := h.tripRun_of_run hrange hscaffold hlive hne htruth hstart hrun
    exact ⟨c, s', htrip⟩
  · rintro ⟨c, s', htrip⟩
    obtain ⟨d, hrun, -⟩ := h.run_of_tripRun hrange hscaffold hlive hne htruth hstart htrip
    exact ⟨d, s', hrun⟩
  · rintro ⟨s', hrun⟩
    obtain ⟨c, htrip, hR⟩ := h.tripRun_of_run hrange hscaffold hlive hne htruth hstart hrun
    cases hR
    exact ⟨s', htrip⟩
  · rintro ⟨s', htrip⟩
    obtain ⟨d, hrun, hR⟩ := h.run_of_tripRun hrange hscaffold hlive hne htruth hstart htrip
    cases hR
    exact ⟨s', hrun⟩

end Simulation

end Unwound

namespace Edit

variable {p q : Program} {head exit : InstrId} {body : List InstrId} {builder : GuardBuilder}
  {pts : IterationPoints}

/-- Where a loop with a body that holds no scaffolding is unwound, whatever its exit is, the traces
of the program from an instruction that was there before are those of the executions of the old
program that go round the loop a second time before they come to the exit by a fall. If nothing
falls to the exit, these are the traces of the old program. -/
theorem traces_duplicateBody_eq_tripTraces (htruth : builder.truth = .bool true)
    (hlive : p.TargetsLive) (hrange : p.range head exit = .ok body)
    (hscaffold : ∀ u ∈ body, (p.fetch u).isScaffold = false)
    (hrun : (duplicateBody head exit builder).run p = .ok pts q) {σ : Type*} (m : Machine σ)
    (s : σ) {x : InstrId} (hx : x ∈ p.order) :
    (q.traces m Instruction.isSilent x s = p.tripTraces m Instruction.isSilent head exit x s ∧
        q.completeTraces m Instruction.isSilent x s =
          p.completeTripTraces m Instruction.isSilent head exit x s) ∧
      ((∀ u ∈ p.order, p.next? u = some exit →
          (p.fetch u).isStop = true ∨ (p.fetch u).isAlwaysTaken = true) →
        q.traces m Instruction.isSilent x s = p.traces m Instruction.isSilent x s ∧
          q.completeTraces m Instruction.isSilent x s =
            p.completeTraces m Instruction.isSilent x s) := by
  obtain ⟨body', behind, copies, hrange', hne, hnext, -⟩ := exists_of_run_duplicateBody hrun
  cases hrange.symm.trans hrange'
  obtain ⟨copy, guard, pts', q', hrun', h, -⟩ := run_duplicateBody builder hlive hrange hne hnext
    fun u _ t _ ht ↦ by rwa [Program.copied_eq_self hscaffold]
  cases hrun.symm.trans hrun'
  have htraces := h.traces_eq_tripTraces (m := m) (s := s) hrange hscaffold hlive hne htruth hx
  refine ⟨htraces, fun hfalls ↦ ?_⟩
  rw [htraces.1, htraces.2]
  exact Program.tripTraces_eq hfalls

/-- A loop that goes round while a guard holds, with a body that jumps to the test. -/
def jumpsToTest : Program :=
  .ofList [.assert (.var ⟨"safe", .bool⟩), .goto ⟨2⟩ (.bool true),
    .goto ⟨0⟩ (.var ⟨"again", .bool⟩), .endFunction]

theorem traces_duplicateBody_eq_tripTraces_jumpsToTest :
    ∃ pts q, (duplicateBody ⟨0⟩ ⟨2⟩ .simplifying).run jumpsToTest = .ok pts q ∧
      ∀ {σ : Type} (m : Machine σ) (s : σ), ∀ x ∈ jumpsToTest.order,
        q.traces m Instruction.isSilent x s = jumpsToTest.traces m Instruction.isSilent x s ∧
          q.completeTraces m Instruction.isSilent x s =
            jumpsToTest.completeTraces m Instruction.isSilent x s := by
  have hunwound : (match (duplicateBody ⟨0⟩ ⟨2⟩ .simplifying).run jumpsToTest with
    | .ok _ _ => true
    | .error _ _ => false) = true := by decide +kernel
  split at hunwound
  · next pts q hrun =>
    have hrange : jumpsToTest.range ⟨0⟩ ⟨2⟩ = .ok [⟨0⟩, ⟨1⟩] := by decide
    refine ⟨pts, q, hrun, fun m s x hx ↦ ?_⟩
    exact (traces_duplicateBody_eq_tripTraces rfl (Program.targetsLive_iff.2 (by decide)) hrange
      (by decide) hrun m s hx).2 (by decide)
  · cases hunwound

/-- A loop that goes round while a guard holds, with a body that falls to the test. -/
def fallsToTest : Program :=
  .ofList [.assert (.var ⟨"safe", .bool⟩), .goto ⟨0⟩ (.var ⟨"again", .bool⟩), .endFunction]

/-- Where the guard does not hold, the old program runs the body once, and then comes to the test.
The new one runs the body and its copy. -/
theorem traces_duplicateBody_eq_tripTraces_fallsToTest :
    fallsToTest.validateTargets = .ok () ∧ (fallsToTest.fetch ⟨1⟩).isConditionalJump = true ∧
      (fallsToTest.fetch ⟨1⟩).targets = [⟨0⟩] ∧ fallsToTest.last? ≠ some ⟨1⟩ ∧
    ∃ pts q, (duplicateBody ⟨0⟩ ⟨1⟩ .simplifying).run fallsToTest = .ok pts q ∧
      ∃ (m : Machine Unit) (τ : List Event), τ ∈ q.traces m Instruction.isSilent ⟨0⟩ () ∧
        τ ∉ fallsToTest.traces m Instruction.isSilent ⟨0⟩ () := by
  refine ⟨by decide, by decide, by decide, by decide, ?_⟩
  have hunwound : (match (duplicateBody ⟨0⟩ ⟨1⟩ .simplifying).run fallsToTest with
    | .ok _ q => decide (q.get? ⟨0⟩ = fallsToTest.get? ⟨0⟩ ∧ q.next? ⟨0⟩ = some ⟨5⟩ ∧
        q.get? ⟨5⟩ = (fallsToTest.get? ⟨0⟩).map Instruction.duplicate)
    | .error _ _ => false) = true := by decide +kernel
  split at hunwound
  · next pts q hrun =>
    obtain ⟨hbody, hnext, hcopy⟩ := of_decide_eq_true hunwound
    let i : Instruction := .assert (.var ⟨"safe", .bool⟩)
    let m : Machine Unit := ⟨fun e _ ↦ e = .bool true, fun _ _ _ _ _ ↦ True, fun _ ↦ rfl⟩
    refine ⟨pts, q, hrun, m, [i.event, i.event], ?_, ?_⟩
    · have hact : m.Acts i () .fall () := .act rfl rfl rfl trivial
      have hact' : m.Acts i.duplicate () .fall () := .act rfl rfl rfl trivial
      have hrest : q.Run m Instruction.isSilent (q.follow ⟨0⟩ .fall) () [i.event]
          (q.follow ⟨5⟩ .fall) () := by
        rw [Program.follow, hnext]
        exact .single _ hcopy hact'
      exact ⟨_, (), .cons hbody hact hrest⟩
    · -- the second instruction of the old program that is observed is the test
      rintro ⟨c, s', hrun'⟩
      obtain ⟨i₀, f, s₁, τ, hi₀, ha, hτ, hrest⟩ := hrun'.exists_step (List.cons_ne_nil _ _)
      have hfirst : fallsToTest.get? ⟨0⟩ = some i := by decide
      cases hfirst.symm.trans hi₀
      obtain rfl : [i.event] = τ := (List.cons.inj hτ).2
      obtain rfl : f = .fall := by
        cases ha with
        | jump hgoto => exact absurd hgoto (by decide)
        | stop hstop => exact absurd hstop (by decide)
        | _ => rfl
      have htest : fallsToTest.next? ⟨0⟩ = some ⟨1⟩ := by decide
      rw [Program.follow, htest] at hrest
      obtain ⟨i₁, f', s₂, τ', hi₁, -, hτ', -⟩ := hrest.exists_step (List.cons_ne_nil _ _)
      have hsecond : fallsToTest.get? ⟨1⟩ = some (.goto ⟨0⟩ (.var ⟨"again", .bool⟩)) := by decide
      cases hsecond.symm.trans hi₁
      exact absurd (congrArg Event.kind (List.cons.inj hτ').1) (by decide)
  · cases hunwound

end Edit

end LoopInduction
