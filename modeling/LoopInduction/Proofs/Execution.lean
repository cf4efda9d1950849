import LoopInduction.Proofs.Program.Insertion
import Mathlib.Data.Set.Basic
import Mathlib.Logic.Relation

/-!
# Executions

What a program does, for any type of states and any reading of guards and effects. A jump whose
guard holds goes to one of its targets and falls through otherwise, a skip falls through, a return
or the end of the function stops, and any other instruction has an effect that depends on its kind,
guard and code only and falls through.

The trace of an execution is what can be observed of the instructions that it runs, without those
that are hidden. A program has no traces but those of another if each of its steps is matched by an
execution of the other (`Program.traces_subset_of_simulates`), and the same traces if this holds
both ways (`Program.traces_eq_of_simulates`). An instruction is *led on* to another if all that can
be done there is to go to that other one without a trace; `Program.Leads` is the closure of this,
and an execution may always be started behind it (`Program.Leads.run`).

## Main definitions

* `Machine` : a reading of guards and effects.
* `Machine.Acts` : what one instruction does.
* `Program.Run` : the executions of a program, with their traces.
* `Program.Simulates` : the steps of one program are executions of another.
-/

namespace LoopInduction

/-- A reading of guards and effects on states. -/
structure Machine (σ : Type*) where
  holds : Expr → σ → Prop
  /-- What an instruction that neither jumps nor skips does to a state. -/
  effect : Kind → Expr → Code → σ → σ → Prop
  holds_truth : ∀ s, holds (.bool true) s

/-- How an instruction hands on control. -/
inductive Flow
  | fall
  | jump (target : InstrId)
  | stop

/-- The same, to the image of the target. -/
def Flow.map (g : InstrId → InstrId) : Flow → Flow
  | .fall => .fall
  | .jump t => .jump (g t)
  | .stop => .stop

/-- What can be observed of an instruction that is run. -/
structure Event where
  kind : Kind
  guard : Expr
  code : Code
  location : Location
  function : String

namespace Instruction

/-- Whether the instruction ends the execution of its function. -/
def isStop (i : Instruction) : Bool :=
  i.kind == .ret || i.kind == .endFunction

/-- Whether the instruction does nothing but lead to another one. -/
def isSilent (i : Instruction) : Bool :=
  i.isSkip || i.isAlwaysTaken

/-- What can be observed of the instruction. -/
def event (i : Instruction) : Event where
  kind := i.kind
  guard := i.guard
  code := i.code
  location := i.location
  function := i.function

/-- The part of a trace that the instruction contributes. -/
def emitted (hidden : Instruction → Bool) (i : Instruction) : List Event :=
  if hidden i then [] else [i.event]

theorem emitted_of_hidden {hidden : Instruction → Bool} {i : Instruction} (h : hidden i = true) :
    i.emitted hidden = [] :=
  if_pos h

/-- A copy is observed like the original, wherever it jumps to. -/
theorem emitted_duplicate (i : Instruction) (ts : List InstrId) :
    ({ i.duplicate with targets := ts } : Instruction).emitted isSilent = i.emitted isSilent :=
  rfl

end Instruction

/-- What an instruction does to a state, and where control goes. -/
inductive Machine.Acts {σ : Type*} (m : Machine σ) (i : Instruction) : σ → Flow → σ → Prop
  | jump {s t} : i.isGoto = true → m.holds i.guard s → t ∈ i.targets → m.Acts i s (.jump t) s
  | pass {s} : i.isGoto = true → ¬ m.holds i.guard s → m.Acts i s .fall s
  | skip {s} : i.isSkip = true → m.Acts i s .fall s
  | stop {s s'} : i.isStop = true → m.effect i.kind i.guard i.code s s' → m.Acts i s .stop s'
  | act {s s'} : i.isGoto = false → i.isSkip = false → i.isStop = false →
      m.effect i.kind i.guard i.code s s' → m.Acts i s .fall s'

namespace Machine.Acts

variable {σ : Type*} {m : Machine σ} {i j : Instruction} {s s' : σ} {f : Flow}

/-- A skip only falls through. -/
theorem of_isSkip (h : m.Acts i s f s') (hi : i.isSkip = true) : f = .fall ∧ s' = s := by
  have hkind : i.kind = .skip := by simpa [Instruction.isSkip] using hi
  cases h with
  | jump hgoto => simp [Instruction.isGoto, hkind] at hgoto
  | pass hgoto => simp [Instruction.isGoto, hkind] at hgoto
  | skip => exact ⟨rfl, rfl⟩
  | stop hstop => simp [Instruction.isStop, hkind] at hstop
  | act _ hskip => rw [hi] at hskip; cases hskip

/-- A jump that is always taken goes to one of its targets. -/
theorem of_isAlwaysTaken (h : m.Acts i s f s') (hi : i.isAlwaysTaken = true) :
    s' = s ∧ ∃ t ∈ i.targets, f = .jump t := by
  obtain ⟨hgoto, hguard⟩ : i.isGoto = true ∧ i.guard = .bool true := by
    simpa [Instruction.isAlwaysTaken] using hi
  have hkind : i.kind = .goto := by simpa [Instruction.isGoto] using hgoto
  cases h with
  | jump _ _ ht => exact ⟨rfl, _, ht, rfl⟩
  | pass _ hholds => exact absurd (hguard ▸ m.holds_truth s) hholds
  | skip hskip => simp [Instruction.isSkip, hkind] at hskip
  | stop hstop => simp [Instruction.isStop, hkind] at hstop
  | act hngoto => rw [hgoto] at hngoto; cases hngoto

/-- What stops the execution does nothing else. -/
theorem of_isStop (h : m.Acts i s f s') (hi : i.isStop = true) : f = .stop := by
  have hkind : i.kind = .ret ∨ i.kind = .endFunction := by simpa [Instruction.isStop] using hi
  cases h with
  | jump hgoto => rcases hkind with hk | hk <;> simp [Instruction.isGoto, hk] at hgoto
  | pass hgoto => rcases hkind with hk | hk <;> simp [Instruction.isGoto, hk] at hgoto
  | skip hskip => rcases hkind with hk | hk <;> simp [Instruction.isSkip, hk] at hskip
  | stop => rfl
  | act _ _ hstop => rw [hi] at hstop; cases hstop

end Machine.Acts

/-- An instruction that differs in its targets only does the same, up to where it jumps to. -/
theorem Machine.acts_iff_of_targets {σ : Type*} {m : Machine σ} {i j : Instruction} {s s' : σ}
    {f : Flow} {g : InstrId → InstrId} (hkind : j.kind = i.kind) (hguard : j.guard = i.guard)
    (hcode : j.code = i.code) (htargets : ∀ t, t ∈ j.targets ↔ ∃ v ∈ i.targets, g v = t) :
    m.Acts j s f s' ↔ ∃ f', m.Acts i s f' s' ∧ f'.map g = f := by
  have hgoto : j.isGoto = i.isGoto := by rw [Instruction.isGoto, Instruction.isGoto, hkind]
  have hskip : j.isSkip = i.isSkip := by rw [Instruction.isSkip, Instruction.isSkip, hkind]
  have hstop : j.isStop = i.isStop := by rw [Instruction.isStop, Instruction.isStop, hkind]
  constructor
  · intro h
    cases h with
    | jump hj hholds ht =>
      obtain ⟨v, hv, rfl⟩ := (htargets _).1 ht
      exact ⟨.jump v, .jump (hgoto ▸ hj) (hguard ▸ hholds) hv, rfl⟩
    | pass hj hholds => exact ⟨.fall, .pass (hgoto ▸ hj) (hguard ▸ hholds), rfl⟩
    | skip hj => exact ⟨.fall, .skip (hskip ▸ hj), rfl⟩
    | stop hj heffect =>
      rw [hkind, hguard, hcode] at heffect
      exact ⟨.stop, .stop (hstop ▸ hj) heffect, rfl⟩
    | act hj hj' hj'' heffect =>
      rw [hkind, hguard, hcode] at heffect
      exact ⟨.fall, .act (hgoto ▸ hj) (hskip ▸ hj') (hstop ▸ hj'') heffect, rfl⟩
  · rintro ⟨f', h, rfl⟩
    cases h with
    | jump hi hholds ht => exact .jump (hgoto ▸ hi) (hguard ▸ hholds) ((htargets _).2 ⟨_, ht, rfl⟩)
    | pass hi hholds => exact .pass (hgoto ▸ hi) (hguard ▸ hholds)
    | skip hi => exact .skip (hskip ▸ hi)
    | stop hi heffect =>
      rw [← hkind, ← hguard, ← hcode] at heffect
      exact .stop (hstop ▸ hi) heffect
    | act hi hi' hi'' heffect =>
      rw [← hkind, ← hguard, ← hcode] at heffect
      exact .act (hgoto ▸ hi) (hskip ▸ hi') (hstop ▸ hi'') heffect

namespace Program

variable {σ : Type*} {m : Machine σ} {hidden : Instruction → Bool} {p q : Program}
  {x y z : InstrId} {c c' : Option InstrId} {s s' : σ} {τ τ' : List Event}

/-- Where control is after an instruction; nowhere once the execution has ended. -/
def follow (p : Program) (id : InstrId) : Flow → Option InstrId
  | .fall => p.next? id
  | .jump t => some t
  | .stop => none

/-- An execution from one control point and state to another, with its trace. -/
inductive Run (m : Machine σ) (hidden : Instruction → Bool) (p : Program) :
    Option InstrId → σ → List Event → Option InstrId → σ → Prop
  | nil (c : Option InstrId) (s : σ) : Run m hidden p c s [] c s
  | cons {x : InstrId} {i : Instruction} {f : Flow} {c : Option InstrId} {s s' s'' : σ}
      {τ : List Event} : p.get? x = some i → m.Acts i s f s' →
      Run m hidden p (p.follow x f) s' τ c s'' →
      Run m hidden p (some x) s (i.emitted hidden ++ τ) c s''

/-- The traces of the executions from an instruction and a state. -/
def traces (m : Machine σ) (hidden : Instruction → Bool) (p : Program) (x : InstrId) (s : σ) :
    Set (List Event) :=
  {τ | ∃ c s', p.Run m hidden (some x) s τ c s'}

/-- The traces of the executions that have come to an end. -/
def completeTraces (m : Machine σ) (hidden : Instruction → Bool) (p : Program) (x : InstrId)
    (s : σ) : Set (List Event) :=
  {τ | ∃ s', p.Run m hidden (some x) s τ none s'}

theorem Run.single (hidden : Instruction → Bool) {i : Instruction} {f : Flow}
    (hi : p.get? x = some i) (h : m.Acts i s f s') :
    p.Run m hidden (some x) s (i.emitted hidden) (p.follow x f) s' := by
  have hrun : p.Run m hidden (some x) s (i.emitted hidden ++ []) (p.follow x f) s' :=
    .cons hi h (.nil _ _)
  rwa [List.append_nil] at hrun

theorem Run.trans {s'' : σ} {c'' : Option InstrId} (h : p.Run m hidden c s τ c' s')
    (h' : p.Run m hidden c' s' τ' c'' s'') : p.Run m hidden c s (τ ++ τ') c'' s'' := by
  induction h with
  | nil => exact h'
  | cons hi ha _ ih =>
    rw [List.append_assoc]
    exact .cons hi ha (ih h')

/-- An execution with a trace begins with a step. -/
theorem Run.exists_step (h : p.Run m hidden (some x) s τ c s') (hτ : τ ≠ []) :
    ∃ i f s₁ τ', p.get? x = some i ∧ m.Acts i s f s₁ ∧ τ = i.emitted hidden ++ τ' ∧
      p.Run m hidden (p.follow x f) s₁ τ' c s' := by
  cases h with
  | nil => exact absurd rfl hτ
  | cons hi ha hrest => exact ⟨_, _, _, _, hi, ha, rfl, hrest⟩

/-- A jump that is always taken may go to each of its targets, without a trace. -/
theorem run_of_isAlwaysTaken {i : Instruction} (hi : p.get? x = some i)
    (htaken : i.isAlwaysTaken = true) (hy : y ∈ i.targets) (m : Machine σ) (s : σ) :
    p.Run m Instruction.isSilent (some x) s [] (some y) s := by
  obtain ⟨hgoto, hguard⟩ : i.isGoto = true ∧ i.guard = .bool true := by
    simpa [Instruction.isAlwaysTaken] using htaken
  have hrun := Run.single Instruction.isSilent hi
    (.jump (m := m) (s := s) (t := y) hgoto (hguard ▸ m.holds_truth s) hy)
  rwa [Instruction.emitted_of_hidden (by simp [Instruction.isSilent, htaken])] at hrun

/-! ### Being led on -/

/-- Control falls through a skip from `x` to `y`. -/
def SkipsTo (p : Program) (x y : InstrId) : Prop :=
  ∃ i, p.get? x = some i ∧ i.isSkip = true ∧ p.next? x = some y

/-- Where skips are hidden, falling through them leaves no trace. -/
theorem run_of_skipsTo (hhidden : ∀ i : Instruction, i.isSkip = true → hidden i = true)
    (h : Relation.ReflTransGen p.SkipsTo x y) (m : Machine σ) (s : σ) :
    p.Run m hidden (some x) s [] (some y) s := by
  induction h with
  | refl => exact .nil _ _
  | tail _ hstep ih =>
    obtain ⟨i, hi, hskip, hnext⟩ := hstep
    have hrun := Run.single hidden hi (.skip (s := s) (m := m) hskip)
    rw [Instruction.emitted_of_hidden (hhidden i hskip), follow, hnext] at hrun
    exact ih.trans hrun

/-- All that can be done at `x` is to go to `y`. -/
def Leads₁ (p : Program) (x y : InstrId) : Prop :=
  (∃ i, p.get? x = some i ∧ i.isSkip = true ∧ p.next? x = some y) ∨
    ∃ i, p.get? x = some i ∧ i.isAlwaysTaken = true ∧ i.targets = [y]

/-- All that can be done at `x` is to go to `y`, by any number of steps. -/
def Leads (p : Program) : InstrId → InstrId → Prop :=
  Relation.ReflTransGen p.Leads₁

theorem Leads₁.run (h : p.Leads₁ x y) (m : Machine σ) (s : σ) :
    p.Run m Instruction.isSilent (some x) s [] (some y) s := by
  rcases h with hskip | ⟨i, hi, htaken, htargets⟩
  · exact run_of_skipsTo (fun i hi ↦ by simp [Instruction.isSilent, hi]) (.single hskip) m s
  · exact run_of_isAlwaysTaken hi htaken (by simp [htargets]) m s

/-- An execution may be started behind what it is led on to. -/
theorem Leads.run (h : p.Leads x y) (m : Machine σ) (s : σ) :
    p.Run m Instruction.isSilent (some x) s [] (some y) s := by
  induction h with
  | refl => exact .nil _ _
  | tail _ h₁ ih => exact ih.trans (h₁.run m s)

/-- Whatever is done where control is led on goes there, without a trace. -/
theorem Leads₁.of_acts {i : Instruction} {f : Flow} (h : p.Leads₁ x y) (hi : p.get? x = some i)
    (ha : m.Acts i s f s') :
    i.emitted Instruction.isSilent = [] ∧ p.follow x f = some y ∧ s' = s := by
  rcases h with ⟨j, hj, hskip, hnext⟩ | ⟨j, hj, htaken, htargets⟩
  · cases hi.symm.trans hj
    obtain ⟨rfl, rfl⟩ := ha.of_isSkip hskip
    exact ⟨Instruction.emitted_of_hidden (by simp [Instruction.isSilent, hskip]), hnext, rfl⟩
  · cases hi.symm.trans hj
    obtain ⟨rfl, t, ht, rfl⟩ := ha.of_isAlwaysTaken htaken
    rw [htargets, List.mem_singleton] at ht
    exact ⟨Instruction.emitted_of_hidden (by simp [Instruction.isSilent, htaken]), by rw [ht]; rfl,
      rfl⟩

/-- Control falls through skips to what stands behind them. -/
theorem skipsTo_of_skips {pre ys post : List InstrId} (h : p.order = pre ++ ys ++ z :: post)
    (hskip : ∀ y ∈ ys, (p.fetch y).isSkip = true) (hx : (ys ++ [z]).head? = some x) :
    Relation.ReflTransGen p.SkipsTo x z := by
  induction ys generalizing pre x with
  | nil =>
    cases hx
    exact .refl
  | cons y ys ih =>
    obtain rfl : y = x := Option.some.inj hx
    have hsplit : p.order = pre ++ y :: (ys ++ z :: post) := by
      rw [h]
      simp only [List.append_assoc, List.cons_append]
    obtain ⟨i, hi⟩ := mem_order_iff_get?.1 (show y ∈ p.order by simp [hsplit])
    obtain ⟨w, hw⟩ : ∃ w, (ys ++ [z]).head? = some w := by cases ys <;> simp
    have hnext : p.next? y = some w := by
      rw [next?_of_order hsplit, ← hw]
      cases ys <;> rfl
    have hi' : i.isSkip = true := fetch_eq hi ▸ hskip y List.mem_cons_self
    have hrest : p.order = (pre ++ [y]) ++ ys ++ z :: post := by
      rw [h]
      simp only [List.append_assoc, List.cons_append, List.nil_append]
    exact .head ⟨i, hi, hi', hnext⟩
      (ih hrest (fun u hu ↦ hskip u (List.mem_cons_of_mem _ hu)) hw)

/-- Skips lead on to what stands behind them. -/
theorem leads_of_skips {pre ys post : List InstrId} (h : p.order = pre ++ ys ++ z :: post)
    (hskip : ∀ y ∈ ys, (p.fetch y).isSkip = true) (hx : (ys ++ [z]).head? = some x) :
    p.Leads x z :=
  Relation.ReflTransGen.mono (fun _ _ ↦ .inl) _ _ (skipsTo_of_skips h hskip hx)

/-- Control is led on to the first of some instructions that is not known to be a skip, or, if all
of them are, to what stands behind them. -/
theorem leads_find? {pre ys post : List InstrId} {f : InstrId → Bool}
    (h : p.order = pre ++ ys ++ z :: post)
    (hf : ∀ y ∈ ys, f y = false → (p.fetch y).isSkip = true) (hx : (ys ++ [z]).head? = some x) :
    p.Leads x ((ys.find? f).getD z) := by
  cases hfind : ys.find? f with
  | none =>
    exact leads_of_skips h (fun y hy ↦ hf y hy (by simpa using List.find?_eq_none.1 hfind y hy)) hx
  | some k =>
    obtain ⟨-, front, back, rfl, hfront⟩ := List.find?_eq_some_iff_append.1 hfind
    have hsplit : p.order = pre ++ front ++ k :: (back ++ z :: post) := by
      rw [h]
      simp only [List.append_assoc, List.cons_append]
    refine leads_of_skips hsplit (fun y hy ↦ hf y (List.mem_append_left _ hy) ?_) ?_
    · simpa using hfront y hy
    · rw [← hx]
      cases front <;> rfl

/-! ### Simulations -/

/-- Every step of `q` from a related control point is an execution of `p` to a related one. -/
def Simulates (m : Machine σ) (hidden : Instruction → Bool) (p q : Program)
    (R : Option InstrId → Option InstrId → Prop) : Prop :=
  ∀ ⦃c y i f s s'⦄, R c (some y) → q.get? y = some i → m.Acts i s f s' →
    ∃ c', p.Run m hidden c s (i.emitted hidden) c' s' ∧ R c' (q.follow y f)

variable {R : Option InstrId → Option InstrId → Prop}

theorem Simulates.run {d d' : Option InstrId} (h : Simulates m hidden p q R) (hR : R c d)
    (hrun : q.Run m hidden d s τ d' s') : ∃ c', p.Run m hidden c s τ c' s' ∧ R c' d' := by
  induction hrun generalizing c with
  | nil => exact ⟨c, .nil _ _, hR⟩
  | cons hi ha _ ih =>
    obtain ⟨c₁, hrun₁, hR₁⟩ := h hR hi ha
    obtain ⟨c₂, hrun₂, hR₂⟩ := ih hR₁
    exact ⟨c₂, hrun₁.trans hrun₂, hR₂⟩

/-- A program whose steps are matched has no traces but those of the other. -/
theorem traces_subset_of_simulates (h : Simulates m hidden p q R) (hend : ∀ c, R c none → c = none)
    (hR : R (some x) (some y)) :
    q.traces m hidden y s ⊆ p.traces m hidden x s ∧
      q.completeTraces m hidden y s ⊆ p.completeTraces m hidden x s := by
  constructor
  · rintro τ ⟨d, s', hrun⟩
    obtain ⟨c, hrun', -⟩ := h.run hR hrun
    exact ⟨c, s', hrun'⟩
  · rintro τ ⟨s', hrun⟩
    obtain ⟨c, hrun', hc⟩ := h.run hR hrun
    cases hend c hc
    exact ⟨s', hrun'⟩

/-- Programs whose steps are matched both ways have the same traces. -/
theorem traces_eq_of_simulates (hpq : Simulates m hidden p q R)
    (hqp : Simulates m hidden q p (Function.swap R)) (hend : ∀ c d, R c d → (c = none ↔ d = none))
    (hR : R (some x) (some y)) :
    q.traces m hidden y s = p.traces m hidden x s ∧
      q.completeTraces m hidden y s = p.completeTraces m hidden x s := by
  obtain ⟨hsub, hcomplete⟩ := traces_subset_of_simulates (s := s) hpq
    (fun c hc ↦ (hend c none hc).2 rfl) hR
  obtain ⟨hsub', hcomplete'⟩ := traces_subset_of_simulates (s := s) hqp
    (fun d hd ↦ (hend none d hd).1 rfl) (show Function.swap R (some y) (some x) from hR)
  exact ⟨hsub.antisymm hsub', hcomplete.antisymm hcomplete'⟩

end Program

end LoopInduction
