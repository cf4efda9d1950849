import LoopInduction.Program.Edit
import LoopInduction.Proofs.Program.Position

/-!
# What edits do

Each edit that finds the instruction it is addressed to gives a program that is known beforehand.
`Program.insertAllAt` puts several instructions in at once; its ids are the next free ones
(`Program.freshIds`), it is a splice (`splice_insertAllAt`) and it leaves all other instructions as
they are (`get?_insertAllAt`).

## Main definitions

* `Program.freshIds` : the ids that the next new instructions get.
* `Program.insertAllAt` : several new instructions at one place.

## Main results

* `Edit.run_insertBefore`, `Edit.run_insertAfter`, `Edit.run_insertAllBefore` : the edits in terms
  of `Program.insertAt` and `Program.insertAllAt`.
-/

namespace LoopInduction

namespace Program

variable {p : Program} {a : InstrId} {k : Nat} {i : Instruction} {is : List Instruction}

theorem get?_eq_none_of_size_le (h : p.slots.size ≤ a.index) : p.get? a = none := by
  rw [get?, Array.getElem?_eq_none h]
  rfl

theorem index_lt_of_mem (h : a ∈ p.order) : a.index < p.slots.size := by
  by_contra hle
  obtain ⟨i, hi⟩ := mem_order_iff_get?.1 h
  rw [get?_eq_none_of_size_le (Nat.le_of_not_lt hle)] at hi
  cases hi

theorem mem_of_get? (h : p.get? a = some i) : a ∈ p.order :=
  mem_order_iff_get?.2 ⟨i, h⟩

theorem get?_eq_none_of_notMem (h : a ∉ p.order) : p.get? a = none := by
  rwa [mem_order_iff_get?, ← Option.isSome_iff_exists, Option.not_isSome_iff_eq_none] at h

theorem fetch_eq (h : p.get? a = some i) : p.fetch a = i := by
  rw [fetch, h, Option.getD_some]

theorem get?_eq_some_fetch (h : a ∈ p.order) : p.get? a = some (p.fetch a) := by
  obtain ⟨i, hi⟩ := mem_order_iff_get?.1 h
  rw [hi, fetch_eq hi]

/-- Only instructions that are there have targets. -/
theorem mem_of_mem_targets {t : InstrId} (h : t ∈ (p.fetch a).targets) : a ∈ p.order := by
  by_contra ha
  rw [fetch, get?_eq_none_of_notMem ha] at h
  cases h

/-! ### Several instructions at one place -/

/-- The ids that the next new instructions get. -/
def freshIds (p : Program) (n : Nat) : List InstrId :=
  (List.range n).map fun j ↦ ⟨p.slots.size + j⟩

/-- Puts new instructions, in their order, in front of the one at a position. -/
def insertAllAt (p : Program) (k : Nat) : List Instruction → Program
  | [] => p
  | i :: is => (p.insertAt k i).insertAllAt (k + 1) is

@[simp] theorem size_slots_insertAt : (p.insertAt k i).slots.size = p.slots.size + 1 := by
  simp [insertAt]

theorem fresh_insertAt : (p.insertAt k i).fresh = ⟨p.slots.size + 1⟩ := by
  rw [fresh, size_slots_insertAt]

theorem size_slots_insertAllAt : (p.insertAllAt k is).slots.size = p.slots.size + is.length := by
  induction is generalizing p k with
  | nil => rfl
  | cons i is ih => rw [insertAllAt, ih, size_slots_insertAt, List.length_cons]; omega

theorem freshIds_succ (n : Nat) :
    p.freshIds (n + 1) = p.fresh :: (p.insertAt k i).freshIds n := by
  simp only [freshIds, List.range_succ_eq_map, List.map_cons, List.map_map, fresh,
    size_slots_insertAt]
  congr 1
  refine List.map_congr_left fun j _ ↦ ?_
  simp only [Function.comp_apply, Nat.succ_eq_add_one, InstrId.mk.injEq]
  omega

@[simp] theorem length_freshIds (n : Nat) : (p.freshIds n).length = n := by
  simp [freshIds]

theorem mem_freshIds {n : Nat} :
    a ∈ p.freshIds n ↔ p.slots.size ≤ a.index ∧ a.index < p.slots.size + n := by
  simp only [freshIds, List.mem_map, List.mem_range]
  constructor
  · rintro ⟨j, hj, rfl⟩
    exact ⟨Nat.le_add_right .., Nat.add_lt_add_left hj _⟩
  · rintro ⟨hle, hlt⟩
    exact ⟨a.index - p.slots.size, by omega, InstrId.ext (by simp; omega)⟩

theorem notMem_of_mem_freshIds {n : Nat} (h : a ∈ p.freshIds n) : a ∉ p.order := fun ha ↦
  absurd (index_lt_of_mem ha) (Nat.not_lt.2 (mem_freshIds.1 h).1)

theorem head?_freshIds (n : Nat) : (p.freshIds (n + 1)).head? = some p.fresh := by
  simp [freshIds, fresh, List.range_succ_eq_map]

theorem splice_insertAt (hk : k ≤ p.order.length) : Splice p (p.insertAt k i) k [p.fresh] where
  le := hk
  order := by simp

theorem splice_insertAllAt (is : List Instruction) (hk : k ≤ p.order.length) :
    Splice p (p.insertAllAt k is) k (p.freshIds is.length) := by
  induction is generalizing p k with
  | nil => exact ⟨hk, by simp [insertAllAt, freshIds]⟩
  | cons i is ih =>
    have hfirst := splice_insertAt (i := i) hk
    have hrest : Splice (p.insertAt k i) ((p.insertAt k i).insertAllAt (k + 1) is) (k + 1)
        ((p.insertAt k i).freshIds is.length) := ih (by rw [hfirst.length]; simpa using hk)
    rw [List.length_cons, freshIds_succ (k := k) (i := i)]
    exact hfirst.trans hrest

/-- New instructions leave all others as they are. -/
theorem get?_insertAllAt (id : InstrId) :
    (p.insertAllAt k is).get? id =
      if id.index < p.slots.size then p.get? id else is[id.index - p.slots.size]? := by
  induction is generalizing p k with
  | nil =>
    split
    · rfl
    · next h => exact get?_eq_none_of_size_le (Nat.le_of_not_lt h)
  | cons i is ih =>
    rw [insertAllAt, ih, size_slots_insertAt, get?_insertAt]
    have hfresh : id = p.fresh ↔ id.index = p.slots.size := InstrId.ext_iff
    rcases Nat.lt_trichotomy id.index p.slots.size with h | h | h
    · rw [if_pos (by omega), if_neg (by rw [hfresh]; omega), if_pos h]
    · rw [if_pos (by omega), if_pos (hfresh.2 h), if_neg (by omega), h, Nat.sub_self]
      rfl
    · rw [if_neg (by omega), if_neg (by omega)]
      obtain ⟨j, hj⟩ : ∃ j, id.index - p.slots.size = j + 1 :=
        ⟨id.index - p.slots.size - 1, by omega⟩
      rw [hj, List.getElem?_cons_succ]
      congr 1
      omega

theorem get?_insertAllAt_of_mem (h : a ∈ p.order) : (p.insertAllAt k is).get? a = p.get? a := by
  rw [get?_insertAllAt, if_pos (index_lt_of_mem h)]

/-- The instructions that were put in, in their order. -/
theorem get?_insertAllAt_fresh (k : Nat) (is : List Instruction) (j : Nat) :
    (p.insertAllAt k is).get? ⟨p.slots.size + j⟩ = is[j]? := by
  rw [get?_insertAllAt, if_neg (by simp)]
  simp

theorem insertAllAt_append (is' : List Instruction) :
    p.insertAllAt k (is ++ is') = (p.insertAllAt k is).insertAllAt (k + is.length) is' := by
  induction is generalizing p k with
  | nil => rfl
  | cons i is ih =>
    rw [List.cons_append, insertAllAt, ih, insertAllAt, List.length_cons,
      show k + 1 + is.length = k + (is.length + 1) by omega]

end Program

/-- Where one step after another succeeds, each of them does. -/
theorem EStateM.exists_of_run_bind {ε σ α β : Type} {x : EStateM ε σ α} {f : α → EStateM ε σ β}
    {p q : σ} {b : β} (h : (x >>= f).run p = .ok b q) :
    ∃ a r, x.run p = .ok a r ∧ (f a).run r = .ok b q := by
  rw [EStateM.run_bind] at h
  cases hx : x.run p with
  | error e r =>
    rw [hx] at h
    cases h
  | ok a r =>
    rw [hx] at h
    exact ⟨a, r, rfl, h⟩

namespace Edit

variable {p : Program} {anchor : InstrId} {i : Instruction} {α β : Type}

theorem run_ask (f : Program → Except Fault α) :
    (ask f).run p = match f p with
      | .ok a => .ok a p
      | .error e => .error e p := rfl

theorem run_ask_ok {f : Program → Except Fault α} {a : α} (h : f p = .ok a) :
    (ask f).run p = .ok a p := by
  rw [run_ask, h]

theorem run_ask_error {f : Program → Except Fault α} {e : Fault} (h : f p = .error e) :
    (ask f).run p = .error e p := by
  rw [run_ask, h]

theorem eq_of_run_ask {f : Program → Except Fault α} {a : α} {q : Program}
    (h : (ask f).run p = .ok a q) : f p = .ok a ∧ q = p := by
  rw [run_ask] at h
  cases hf : f p with
  | error e =>
    rw [hf] at h
    cases h
  | ok b =>
    rw [hf] at h
    cases h
    exact ⟨rfl, rfl⟩

theorem run_discard (e : Edit α) :
    (discard e).run p = match e.run p with
      | .ok _ q => .ok () q
      | .error f q => .error f q := by
  rw [discard, map_const, Function.comp_apply, ← bind_pure_comp, EStateM.run_bind]
  cases e.run p <;> rfl

theorem run_map (f : α → β) (e : Edit α) :
    (f <$> e).run p = match e.run p with
      | .ok a q => .ok (f a) q
      | .error f q => .error f q := by
  rw [← bind_pure_comp, EStateM.run_bind]
  cases e.run p <;> rfl

theorem run_fetch {id : InstrId} (h : p.get? id = some i) : (fetch id).run p = .ok i p :=
  run_ask_ok (by rw [Program.instruction, h])

theorem eq_of_run_fetch {id : InstrId} {q : Program} (h : (fetch id).run p = .ok i q) :
    p.fetch id = i ∧ q = p := by
  obtain ⟨hi, rfl⟩ := eq_of_run_ask h
  cases hget : q.get? id with
  | none =>
    rw [Program.instruction, hget] at hi
    cases hi
  | some j =>
    rw [Program.instruction, hget] at hi
    cases hi
    exact ⟨Program.fetch_eq hget, rfl⟩

theorem run_insertBefore (h : anchor ∈ p.order) (i : Instruction) :
    (insertBefore anchor i).run p = .ok p.fresh (p.insertAt (p.position anchor) i) := by
  obtain ⟨x, hx⟩ := Program.mem_order_iff_get?.1 h
  rw [insertBefore, EStateM.run_bind, run_discard, run_fetch hx]
  rfl

theorem run_insertAfter (h : anchor ∈ p.order) (i : Instruction) :
    (insertAfter anchor i).run p = .ok p.fresh (p.insertAt (p.position anchor + 1) i) := by
  obtain ⟨x, hx⟩ := Program.mem_order_iff_get?.1 h
  rw [insertAfter, EStateM.run_bind, run_discard, run_fetch hx]
  rfl

theorem run_mapM_insertBefore (h : anchor ∈ p.order) (is : List Instruction) :
    (is.mapM (insertBefore anchor)).run p =
      .ok (p.freshIds is.length) (p.insertAllAt (p.position anchor) is) := by
  induction is generalizing p with
  | nil => rfl
  | cons i is ih =>
    have hsplice := Program.splice_insertAt (p := p) (i := i) (Nat.le_of_lt
      (Program.position_lt_iff.2 h))
    have hpos : (p.insertAt (p.position anchor) i).position anchor = p.position anchor + 1 := by
      rw [hsplice.position_old h, if_neg (Nat.lt_irrefl _)]
      rfl
    rw [List.mapM_cons, EStateM.run_bind, run_insertBefore h]
    simp only [bind_pure_comp]
    rw [run_map, ih (hsplice.mem_old h), hpos, List.length_cons,
      Program.freshIds_succ (k := p.position anchor) (i := i)]
    rfl

theorem run_insertAllBefore (h : anchor ∈ p.order) (is : List Instruction) :
    (insertAllBefore anchor is).run p =
      .ok (p.freshIds is.length) (p.insertAllAt (p.position anchor) is) := by
  obtain ⟨x, hx⟩ := Program.mem_order_iff_get?.1 h
  rw [insertAllBefore, EStateM.run_bind, run_discard, run_fetch hx]
  exact run_mapM_insertBefore h is

end Edit

end LoopInduction
