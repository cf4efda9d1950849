import LoopInduction.Program.Operation
import LoopInduction.Proofs.Program.Jumps
import Mathlib.Data.List.Perm.Subperm

/-!
# Linked slots and the order they stand for

An arena *links* a program if it has the same instructions at the same ids and its links say what
the order of the program says (`Arena.Links`). Putting a slot between neighbours is then inserting
at the position between them (`Arena.Links.linked`), and taking one out is erasing it
(`Arena.Links.unlinked`). Both rest on what an insertion and a removal do to the successors in a
list; what comes before an instruction is what succeeds it in the reversed list, so one argument
serves both directions.

The way along the links from any slot ends (`Arena.Links.exists_walks`), and from the first slot it
is the order of the program (`Arena.Links.ids`).

## Main definitions

* `Arena.Links` : the links of an arena say what the order of a program says.
* `Arena.Walks` : the way from a cursor along the links, without a limit.

## Main results

* `Arena.Links.linked`, `Arena.Links.unlinked`, `Arena.Links.redirectTargets` : the changes of the
  links follow the changes of the order.
-/

namespace LoopInduction

/-! ### Successors in a list -/

section Successor

variable {x y new : InstrId} {pre post : List InstrId}

private theorem dropWhile_ne_append (h : x ∉ pre) :
    (pre ++ post).dropWhile (· ≠ x) = post.dropWhile (· ≠ x) :=
  List.dropWhile_append_of_pos fun y hy ↦ by simpa using fun e : y = x ↦ h (e ▸ hy)

theorem successor?_append_cons (h : x ∉ pre) : successor? (pre ++ x :: post) x = post.head? := by
  rw [successor?, dropWhile_ne_append h, List.dropWhile_cons_of_neg (by simp), List.tail_cons]

theorem successor?_of_notMem (h : x ∉ pre) : successor? pre x = none := by
  rw [successor?, ← List.append_nil pre, dropWhile_ne_append h]
  rfl

/-- The successor of the last element of a stretch is the first element behind it; the successors
of all others do not depend on what is behind the stretch. -/
theorem successor?_append (h : (pre ++ post).Nodup) :
    successor? (pre ++ post) x =
      if pre.getLast? = some x then post.head?
      else if x ∈ pre then successor? pre x else successor? post x := by
  by_cases hpre : x ∈ pre
  · obtain ⟨a, b, rfl⟩ := List.append_of_mem hpre
    have hx : x ∉ a ∧ x ∉ b := by
      have := h.sublist (List.sublist_append_left ..)
      rw [List.nodup_middle, List.nodup_cons, List.mem_append, not_or] at this
      exact this.1
    rw [List.append_assoc, List.cons_append, successor?_append_cons hx.1, if_pos hpre,
      successor?_append_cons hx.1, List.getLast?_append_cons]
    cases b with
    | nil => simp
    | cons y b =>
      have hlast : (x :: y :: b).getLast? ≠ some x := by
        rw [List.getLast?_cons_cons]
        exact fun e ↦ hx.2 (List.mem_of_getLast? e)
      rw [if_neg hlast]
      rfl
  · have hlast : pre.getLast? ≠ some x := fun e ↦ hpre (List.mem_of_getLast? e)
    rw [if_neg hlast, if_neg hpre, successor?, dropWhile_ne_append hpre]
    rfl

/-- Putting an element between two stretches. -/
theorem successor?_insert (h : (pre ++ new :: post).Nodup) :
    successor? (pre ++ new :: post) x =
      if x = new then post.head?
      else if pre.getLast? = some x then some new
      else successor? (pre ++ post) x := by
  have hold : (pre ++ post).Nodup := (List.nodup_middle.1 h).of_cons
  split
  · next e =>
    have hnew : new ∉ pre ++ post := (List.nodup_middle.1 h).notMem
    rw [e, successor?_append_cons fun hm ↦ hnew (List.mem_append_left _ hm)]
  · next hx =>
    have hcons : successor? (new :: post) x = successor? post x := by
      rw [successor?, List.dropWhile_cons_of_pos (by simpa using Ne.symm hx)]
      rfl
    rw [successor?_append h, successor?_append hold, hcons, List.head?_cons]
    split <;> rfl

/-- Taking an element out from between two stretches. -/
theorem successor?_delete (h : (pre ++ y :: post).Nodup) :
    successor? (pre ++ post) x =
      if x = y then none
      else if pre.getLast? = some x then post.head?
      else successor? (pre ++ y :: post) x := by
  split
  · next e => rw [e, successor?_of_notMem (List.nodup_middle.1 h).notMem]
  · next hx =>
    rw [successor?_insert h, if_neg hx, successor?_append (List.nodup_middle.1 h).of_cons]
    split <;> rfl

end Successor

namespace Program

variable {p : Program} {k : Nat} {i : Instruction} {x y : InstrId}

/-- There are no more instructions than slots. -/
theorem length_order_le : p.order.length ≤ p.slots.size := by
  have hnodup : (p.order.map InstrId.index).Nodup :=
    p.order_nodup.map fun _ _ h ↦ InstrId.ext h
  have hsub : p.order.map InstrId.index ⊆ List.range p.slots.size := by
    intro k hk
    obtain ⟨id, hid, rfl⟩ := List.mem_map.1 hk
    exact List.mem_range.2 (index_lt_of_mem hid)
  simpa using (hnodup.subperm hsub).length_le

theorem map_map (f g : InstrId → Instruction → Instruction) :
    (p.map f).map g = p.map fun id i ↦ g id (f id i) := by
  simp only [map, Array.mapIdx_mapIdx, Function.comp_def, Option.map_map]

theorem map_id {f : InstrId → Instruction → Instruction} (hf : ∀ id i, f id i = i) :
    p.map f = p := by
  have hslots : p.slots.mapIdx (fun k i ↦ i.map (f ⟨k⟩)) = p.slots :=
    Array.ext (by simp) fun k _ _ ↦ by simp [funext (hf ⟨k⟩)]
  simp only [map, hslots]

/-- Only what is done to instructions of the program counts. -/
theorem map_congr {f g : InstrId → Instruction → Instruction}
    (h : ∀ id i, p.get? id = some i → f id i = g id i) : p.map f = p.map g := by
  have hslots : p.slots.mapIdx (fun k i ↦ i.map (f ⟨k⟩)) =
      p.slots.mapIdx fun k i ↦ i.map (g ⟨k⟩) := by
    refine Array.ext (by simp) fun k hk _ ↦ ?_
    have hk' : k < p.slots.size := by simpa using hk
    rw [Array.getElem_mapIdx, Array.getElem_mapIdx]
    cases hi : p.slots[k] with
    | none => rfl
    | some i =>
      have hget : p.get? ⟨k⟩ = some i := by
        rw [get?, Array.getElem?_eq_getElem hk', hi, Option.join_some]
      rw [Option.map_some, Option.map_some, h _ _ hget]
  simp only [map, hslots]

/-- Erasing an instruction joins what stands before it to what stands behind it. -/
theorem order_erase_of_order {pre post : List InstrId} (h : p.order = pre ++ x :: post) :
    (p.erase x).order = pre ++ post := by
  have hne : x ∉ pre ++ post := (List.nodup_middle.1 (h ▸ p.order_nodup)).notMem
  rw [order_erase, h, List.filter_append, List.filter_cons_of_neg (by simp), ← List.filter_append,
    List.filter_eq_self]
  intro y hy
  simpa using fun e : y = x ↦ hne (e ▸ hy)

theorem next?_eq_successor? : p.next? x = successor? p.order x := rfl

theorem prev?_of_order {pre post : List InstrId} (h : p.order = pre ++ x :: post) :
    p.prev? x = pre.getLast? := by
  have hpre : x ∉ pre := by
    have hnodup := p.order_nodup
    rw [h, List.nodup_append'] at hnodup
    exact fun hx ↦ hnodup.2.2 hx (List.mem_cons_self ..)
  have htake : p.order.takeWhile (· ≠ x) = pre := by
    rw [h, List.takeWhile_append_of_pos fun y hy ↦ by
      simpa using fun e : y = x ↦ hpre (e ▸ hy), List.takeWhile_cons_of_neg (by simp),
      List.append_nil]
  rw [prev?, if_pos (contains_iff.2 (by simp [h])), htake]

/-- What comes before an instruction is what succeeds it in the reversed order. -/
theorem prev?_eq_successor? : p.prev? x = successor? p.order.reverse x := by
  by_cases hx : x ∈ p.order
  · obtain ⟨pre, post, h⟩ := List.append_of_mem hx
    have hpost : x ∉ post := by
      have hnodup := p.order_nodup
      rw [h, List.nodup_middle] at hnodup
      exact fun hx ↦ hnodup.notMem (List.mem_append_right _ hx)
    rw [prev?_of_order h, h, List.reverse_append, List.reverse_cons, List.append_assoc,
      List.singleton_append, successor?_append_cons (by simpa using hpost), List.head?_reverse]
  · rw [prev?, if_neg (by simpa using hx), successor?_of_notMem (by simpa using hx)]

end Program

namespace Arena

variable {a : Arena} {p : Program} {id x : InstrId} {prev? next? : Option InstrId}
  {i : Instruction} {k : Nat}

/-! ### Slots after a change of the links -/

theorem liveSlot?_alter {f : Slot → Slot} (hf : ∀ s, (f s).live = s.live) :
    (a.alter id f).liveSlot? x =
      (a.liveSlot? x).map fun s ↦ if x = id then f s else s := by
  rw [liveSlot?, alter, Array.getElem?_modify, liveSlot?]
  by_cases h : id.index = x.index
  · have hx : x = id := InstrId.ext h.symm
    subst hx
    cases hs : a.slots[x.index]? with
    | none => simp
    | some s => cases hl : s.live <;> simp [Option.filter_some, hf, hl]
  · have hx : x ≠ id := fun e ↦ h (e ▸ rfl)
    simp [h, hx]

theorem liveSlot?_setNext : (a.setNext prev? next?).liveSlot? x =
    (a.liveSlot? x).map fun s ↦
      { s with next? := if prev? = some x then next? else s.next? } := by
  cases prev? with
  | none => simp [setNext, liveSlot?]
  | some y =>
    rw [setNext, liveSlot?_alter (f := ({ · with next? := next? })) fun _ ↦ rfl]
    congr 1
    funext s
    by_cases h : x = y <;> simp [h, eq_comm]

theorem liveSlot?_setPrev : (a.setPrev next? prev?).liveSlot? x =
    (a.liveSlot? x).map fun s ↦
      { s with prev? := if next? = some x then prev? else s.prev? } := by
  cases next? with
  | none => simp [setPrev, liveSlot?]
  | some y =>
    rw [setPrev, liveSlot?_alter (f := ({ · with prev? := prev? })) fun _ ↦ rfl]
    congr 1
    funext s
    by_cases h : x = y <;> simp [h, eq_comm]

theorem liveSlot?_allocate : (a.allocate i prev? next?).liveSlot? x =
    if x = a.fresh then some ⟨i, prev?, next?, true⟩ else a.liveSlot? x := by
  rw [liveSlot?, allocate, Array.getElem?_push, liveSlot?, fresh]
  by_cases h : x.index = a.slots.size <;> simp [h, InstrId.ext_iff]

theorem index_lt_of_contains (h : a.contains x) : x.index < a.slots.size := by
  by_contra hle
  rw [contains, liveSlot?, Array.getElem?_eq_none (Nat.le_of_not_lt hle)] at h
  cases h

theorem ne_fresh_of_contains (h : a.contains x) : x ≠ a.fresh := fun e ↦
  absurd (index_lt_of_contains h) (by rw [e]; exact Nat.lt_irrefl _)

/-- A new slot between two neighbours has the links to them, and they have the links to it. -/
theorem liveSlot?_linked (hprev : ∀ y, prev? = some y → a.contains y)
    (hnext : ∀ y, next? = some y → a.contains y) :
    (a.linked prev? next? i).liveSlot? x =
      if x = a.fresh then some ⟨i, prev?, next?, true⟩
      else (a.liveSlot? x).map fun s ↦
        { s with
          next? := if prev? = some x then some a.fresh else s.next?
          prev? := if next? = some x then some a.fresh else s.prev? } := by
  rw [linked, liveSlot?_setPrev, liveSlot?_setNext, liveSlot?_allocate]
  by_cases h : x = a.fresh
  · have hp : prev? ≠ some x := fun e ↦ ne_fresh_of_contains (hprev _ e) h
    have hn : next? ≠ some x := fun e ↦ ne_fresh_of_contains (hnext _ e) h
    simp only [if_pos h, if_neg hp, if_neg hn, Option.map_some]
  · rw [if_neg h, if_neg h, Option.map_map]
    rfl

/-- A slot that is taken out is dead, and its neighbours have links to each other. -/
theorem liveSlot?_unlinked : (a.unlinked id).liveSlot? x =
    if x = id then none
    else (a.liveSlot? x).map fun s ↦
      { s with
        next? := if a.prev? id = some x then a.next? id else s.next?
        prev? := if a.next? id = some x then a.prev? id else s.prev? } := by
  have hbridged (y : InstrId) :
      ((a.setNext (a.prev? id) (a.next? id)).setPrev (a.next? id) (a.prev? id)).liveSlot? y =
      (a.liveSlot? y).map fun s ↦
        { s with
          next? := if a.prev? id = some y then a.next? id else s.next?
          prev? := if a.next? id = some y then a.prev? id else s.prev? } := by
    rw [liveSlot?_setPrev, liveSlot?_setNext, Option.map_map]
    rfl
  rw [unlinked]
  simp only [liveSlot?, alter, Array.getElem?_modify]
  by_cases h : id.index = x.index
  · have hx : x = id := InstrId.ext h.symm
    rw [if_pos h, if_pos hx, Option.filter_eq_none_iff]
    intro s hs
    obtain ⟨-, -, rfl⟩ := Option.map_eq_some_iff.1 hs
    simp
  · have hx : x ≠ id := fun e ↦ h (e ▸ rfl)
    rw [if_neg h, if_neg hx]
    exact hbridged x

/-- Only a live slot can be given another link. -/
private theorem bind_relink {o : Option Slot} {P : Prop} [Decidable P] {new : Option InstrId}
    {old : Slot → Option InstrId} (h : P → o.isSome) :
    (o.bind fun s ↦ if P then new else old s) = if P then new else o.bind old := by
  split
  · next hP =>
    obtain ⟨s, rfl⟩ := Option.isSome_iff_exists.1 (h hP)
    rfl
  · rfl

section Linked

variable (hprev : ∀ y, prev? = some y → a.contains y) (hnext : ∀ y, next? = some y → a.contains y)

include hprev hnext

theorem get?_linked :
    (a.linked prev? next? i).get? x = if x = a.fresh then some i else a.get? x := by
  rw [get?, liveSlot?_linked hprev hnext]
  split
  · rfl
  · rw [Option.map_map]
    rfl

theorem next?_linked : (a.linked prev? next? i).next? x =
    if x = a.fresh then next? else if prev? = some x then some a.fresh else a.next? x := by
  rw [Arena.next?, liveSlot?_linked hprev hnext]
  split
  · rfl
  · rw [Option.bind_map]
    exact bind_relink (hprev x)

theorem prev?_linked : (a.linked prev? next? i).prev? x =
    if x = a.fresh then prev? else if next? = some x then some a.fresh else a.prev? x := by
  rw [Arena.prev?, liveSlot?_linked hprev hnext]
  split
  · rfl
  · rw [Option.bind_map]
    exact bind_relink (hnext x)

end Linked

theorem first?_linked : (a.linked prev? next? i).first? =
    if prev? = none then some a.fresh else a.first? := by
  cases prev? <;> cases next? <;> rfl

theorem last?_linked : (a.linked prev? next? i).last? =
    if next? = none then some a.fresh else a.last? := by
  cases prev? <;> cases next? <;> rfl

theorem size_linked : (a.linked prev? next? i).size = a.size + 1 := by
  cases prev? <;> cases next? <;> rfl

theorem size_slots_linked : (a.linked prev? next? i).slots.size = a.slots.size + 1 := by
  cases prev? <;> cases next? <;> simp [linked, setNext, setPrev, alter, allocate]

theorem get?_unlinked : (a.unlinked id).get? x = if x = id then none else a.get? x := by
  rw [get?, liveSlot?_unlinked]
  split
  · rfl
  · rw [Option.map_map]
    rfl

theorem next?_unlinked (hprev : ∀ y, a.prev? id = some y → a.contains y) :
    (a.unlinked id).next? x =
      if x = id then none else if a.prev? id = some x then a.next? id else a.next? x := by
  rw [Arena.next?, liveSlot?_unlinked]
  split
  · rfl
  · rw [Option.bind_map]
    exact bind_relink (hprev x)

theorem prev?_unlinked (hnext : ∀ y, a.next? id = some y → a.contains y) :
    (a.unlinked id).prev? x =
      if x = id then none else if a.next? id = some x then a.prev? id else a.prev? x := by
  rw [Arena.prev?, liveSlot?_unlinked]
  split
  · rfl
  · rw [Option.bind_map]
    exact bind_relink (hnext x)

theorem first?_unlinked : (a.unlinked id).first? =
    if a.prev? id = none then a.next? id else a.first? := by
  unfold unlinked
  cases a.prev? id <;> cases a.next? id <;> rfl

theorem last?_unlinked : (a.unlinked id).last? =
    if a.next? id = none then a.prev? id else a.last? := by
  unfold unlinked
  cases a.prev? id <;> cases a.next? id <;> rfl

theorem size_slots_unlinked : (a.unlinked id).slots.size = a.slots.size := by
  unfold unlinked
  cases a.prev? id <;> cases a.next? id <;> simp [setNext, setPrev, alter]

/-! ### Links and order -/

/-- An arena links a program: same instructions, and the links say what the order says. -/
structure Links (a : Arena) (p : Program) : Prop where
  size_slots : a.slots.size = p.slots.size
  get? : ∀ x, a.get? x = p.get? x
  next? : ∀ x, a.next? x = p.next? x
  prev? : ∀ x, a.prev? x = p.prev? x
  first? : a.first? = p.first?
  last? : a.last? = p.last?
  size : a.size = p.size

theorem links_empty : Arena.empty.Links .empty where
  size_slots := rfl
  get? _ := by simp [Arena.get?, liveSlot?, empty, Program.get?, Program.empty]
  next? _ := by simp [Arena.next?, liveSlot?, empty, Program.next?, Program.after, Program.empty]
  prev? _ := by
    simp [Arena.prev?, liveSlot?, empty, Program.prev?_eq_successor?, successor?, Program.empty]
  first? := rfl
  last? := rfl
  size := rfl

namespace Links

theorem fresh (h : a.Links p) : a.fresh = p.fresh := by
  rw [Arena.fresh, h.size_slots, Program.fresh]

theorem contains (h : a.Links p) (x : InstrId) : a.contains x = p.contains x := by
  rw [Arena.contains, Program.contains, ← h.get? x, Arena.get?, Option.isSome_map]

theorem fetch (h : a.Links p) (x : InstrId) : a.fetch x = p.fetch x := by
  rw [Arena.fetch, h.get?, Program.fetch]

theorem contains_of_mem (h : a.Links p) (hx : x ∈ p.order) : a.contains x := by
  rw [h.contains, Program.contains_iff]
  exact hx

/-- Putting a slot between the neighbours at a position is inserting there. -/
theorem linked (h : a.Links p) (k : Nat) (i : Instruction) :
    (a.linked (p.order.take k).getLast? (p.order.drop k).head? i).Links (p.insertAt k i) := by
  have hprev : ∀ y, (p.order.take k).getLast? = some y → a.contains y := fun y hy ↦
    h.contains_of_mem (List.mem_of_mem_take (List.mem_of_getLast? hy))
  have hnext : ∀ y, (p.order.drop k).head? = some y → a.contains y := fun y hy ↦
    h.contains_of_mem (List.mem_of_mem_drop (List.mem_of_mem_head? hy))
  have hnodup := (p.insertAt k i).order_nodup
  rw [Program.order_insertAt] at hnodup
  constructor
  case size_slots => rw [size_slots_linked, Program.size_slots_insertAt, h.size_slots]
  case get? =>
    intro x
    rw [get?_linked hprev hnext, Program.get?_insertAt, h.fresh, h.get?]
  case next? =>
    intro x
    rw [next?_linked hprev hnext, Program.next?_eq_successor?, Program.order_insertAt,
      successor?_insert hnodup, List.take_append_drop, h.fresh, h.next?]
    rfl
  case prev? =>
    intro x
    have hreverse := hnodup
    rw [← List.nodup_reverse, List.reverse_append, List.reverse_cons, List.append_assoc,
      List.singleton_append] at hreverse
    rw [prev?_linked hprev hnext, Program.prev?_eq_successor?, Program.order_insertAt,
      List.reverse_append, List.reverse_cons, List.append_assoc, List.singleton_append,
      successor?_insert hreverse, ← List.reverse_append, List.take_append_drop, List.head?_reverse,
      List.getLast?_reverse, h.fresh, h.prev?, Program.prev?_eq_successor?]
  case first? =>
    rw [first?_linked, Program.first?, Program.order_insertAt, h.fresh, h.first?, Program.first?]
    cases htake : p.order.take k with
    | nil => rfl
    | cons y ys =>
      rw [if_neg (by simp), ← List.take_append_drop k p.order, htake]
      rfl
  case last? =>
    rw [last?_linked, Program.last?, Program.order_insertAt, h.fresh, h.last?, Program.last?]
    cases hdrop : p.order.drop k with
    | nil => simp
    | cons y ys =>
      rw [if_neg (by simp), ← List.take_append_drop k p.order, hdrop, List.getLast?_append_cons,
        List.getLast?_append_cons, List.getLast?_cons_cons]
  case size =>
    rw [size_linked, Program.size, Program.order_insertAt, h.size, Program.size]
    simp only [List.length_append, List.length_cons, List.length_take, List.length_drop]
    omega

/-- Taking a slot out is erasing the instruction. -/
theorem unlinked (h : a.Links p) (hid : id ∈ p.order) : (a.unlinked id).Links (p.erase id) := by
  obtain ⟨pre, post, horder⟩ := List.append_of_mem hid
  have hnodup : (pre ++ id :: post).Nodup := horder ▸ p.order_nodup
  have herase : (p.erase id).order = pre ++ post := Program.order_erase_of_order horder
  have hreverse : (post.reverse ++ id :: pre.reverse).Nodup := by
    simpa using List.nodup_reverse.2 hnodup
  have hnext : a.next? id = post.head? := by rw [h.next?, Program.next?_of_order horder]
  have hprev : a.prev? id = pre.getLast? := by rw [h.prev?, Program.prev?_of_order horder]
  have hnextLive : ∀ y, a.next? id = some y → a.contains y := fun y hy ↦ by
    rw [hnext] at hy
    exact h.contains_of_mem (by simp [horder, List.mem_of_mem_head? hy])
  have hprevLive : ∀ y, a.prev? id = some y → a.contains y := fun y hy ↦ by
    rw [hprev] at hy
    exact h.contains_of_mem (by simp [horder, List.mem_of_getLast? hy])
  constructor
  case size_slots => rw [size_slots_unlinked, h.size_slots]; simp [Program.erase]
  case get? =>
    intro x
    rw [get?_unlinked, Program.get?_erase, h.get?]
  case next? =>
    intro x
    rw [next?_unlinked hprevLive, hprev, hnext, h.next?, Program.next?_eq_successor?,
      Program.next?_eq_successor?, herase, successor?_delete hnodup, horder]
  case prev? =>
    intro x
    rw [prev?_unlinked hnextLive, hprev, hnext, h.prev?, Program.prev?_eq_successor?,
      Program.prev?_eq_successor?, herase, List.reverse_append, successor?_delete hreverse,
      List.getLast?_reverse, List.head?_reverse, horder]
    simp
  case first? =>
    rw [first?_unlinked, hprev, hnext, h.first?, Program.first?, Program.first?, herase, horder]
    cases pre <;> simp
  case last? =>
    rw [last?_unlinked, hprev, hnext, h.last?, Program.last?, Program.last?, herase, horder]
    cases post <;> simp
  case size =>
    show a.size - 1 = (p.erase id).order.length
    rw [h.size, Program.size, herase, horder]
    simp

/-- Changing the instruction of a slot is changing it in the program. -/
theorem alter (h : a.Links p) (id : InstrId) (f : Instruction → Instruction) :
    (a.alter id fun s ↦ { s with instruction := f s.instruction }).Links (p.update id f) := by
  have hslot (x : InstrId) :
      (a.alter id fun s ↦ { s with instruction := f s.instruction }).liveSlot? x =
        (a.liveSlot? x).map fun s ↦
          if x = id then { s with instruction := f s.instruction } else s :=
    liveSlot?_alter (f := fun s ↦ { s with instruction := f s.instruction }) fun _ ↦ rfl
  constructor
  case size_slots => simp [Arena.alter, Program.update, Program.map, h.size_slots]
  case get? =>
    intro x
    rw [Arena.get?, hslot, Program.get?_update, ← h.get?, Arena.get?]
    split <;> simp [Function.comp_def]
  case next? =>
    intro x
    rw [Program.next?_congr (q := p.update id f) (p := p) rfl, ← h.next?, Arena.next?, hslot,
      Option.bind_map]
    split <;> rfl
  case prev? =>
    intro x
    rw [Program.prev?_eq_successor?, Program.update, Program.order_map,
      ← Program.prev?_eq_successor?, ← h.prev?, Arena.prev?, hslot, Option.bind_map]
    split <;> rfl
  case first? => exact h.first?
  case last? => exact h.last?
  case size => exact h.size

end Links

/-! ### The way along the links -/

/-- The way from a cursor along the links, until there is no next slot. -/
inductive Walks (a : Arena) : Option InstrId → List InstrId → Prop
  | done : Walks a none []
  | step {x : InstrId} {ids : List InstrId} (rest : Walks a (a.next? x) ids) :
    Walks a (some x) (x :: ids)

/-- A way that ends is gone to its end if the limit allows for its length. -/
theorem Walks.walk_eq {cursor : Option InstrId} {ids : List InstrId} (h : a.Walks cursor ids)
    {limit : Nat} (hlimit : ids.length ≤ limit) : a.walk limit cursor = ids := by
  induction h generalizing limit with
  | done => cases limit <;> rfl
  | step rest ih =>
    cases limit with
    | zero => simp at hlimit
    | succ n => rw [walk, ih (Nat.le_of_succ_le_succ hlimit)]

namespace Links

/-- From every place of the order the way goes through the rest of the order. -/
theorem walks {pre ids : List InstrId} (h : a.Links p) (horder : p.order = pre ++ ids) :
    a.Walks ids.head? ids := by
  induction ids generalizing pre with
  | nil => exact .done
  | cons x ids ih =>
    refine .step ?_
    rw [h.next?, Program.next?_of_order horder]
    have hrest : p.order = (pre ++ [x]) ++ ids := by simp [horder]
    exact ih hrest

theorem walks_first? (h : a.Links p) : a.Walks a.first? p.order := by
  rw [h.first?]
  exact h.walks (List.nil_append _).symm

/-- The way from any id ends. -/
theorem exists_walks (h : a.Links p) (x : InstrId) : ∃ ids, a.Walks (some x) ids := by
  by_cases hx : x ∈ p.order
  · obtain ⟨pre, post, horder⟩ := List.append_of_mem hx
    exact ⟨x :: post, h.walks horder⟩
  · refine ⟨[x], .step ?_⟩
    rw [h.next?, Program.next?_eq_none_of_notMem hx]
    exact .done

theorem ids (h : a.Links p) : a.ids = p.order := by
  refine h.walks_first?.walk_eq ?_
  rw [h.size_slots]
  exact p.length_order_le

theorem entries (h : a.Links p) : a.entries = p.entries := by
  simp only [Arena.entries, Program.entries, h.ids, h.fetch]

theorem view (h : a.Links p) : a.view = p.view := by
  rw [Arena.view, Program.view, h.entries, h.ids, h.first?, h.last?, h.size, funext h.contains,
    funext h.get?, funext h.prev?, funext h.next?, Arena.isEmpty, h.size, Program.size,
    Program.isEmpty]
  cases p.order <;> rfl

theorem jumpSources (h : a.Links p) (target : InstrId) :
    a.jumpSources target = p.jumpSources target := by
  rw [Arena.jumpSources, h.entries, Program.jumpSources]

/-- Redirecting one instruction after the other redirects all of them. -/
theorem foldl_redirectOne {old new : InstrId} {sources : List InstrId} (h : a.Links p)
    (hnodup : sources.Nodup) (hold : ∀ s ∈ sources, old ∈ (p.fetch s).targets) (n : Nat) :
    (sources.foldl (redirectOne old new) (a, n)).1.Links
        (p.map fun id i ↦ if id ∈ sources then i.redirect old new else i) ∧
      (sources.foldl (redirectOne old new) (a, n)).2 = n + sources.length := by
  induction sources generalizing a p n with
  | nil =>
    have hmap : (p.map fun id i ↦ if id ∈ ([] : List InstrId) then i.redirect old new else i) = p :=
      Program.map_id fun _ _ ↦ if_neg List.not_mem_nil
    rw [hmap]
    exact ⟨h, rfl⟩
  | cons s sources ih =>
    obtain ⟨hs, hnodup⟩ := List.nodup_cons.1 hnodup
    have hrest : ∀ x ∈ sources, old ∈ ((p.update s (·.redirect old new)).fetch x).targets := by
      intro x hx
      have hne : x ≠ s := fun e ↦ hs (e ▸ hx)
      rw [Program.fetch, Program.get?_update, if_neg hne]
      exact hold x (List.mem_cons_of_mem _ hx)
    have hmap : (p.update s (·.redirect old new)).map
        (fun id i ↦ if id ∈ sources then i.redirect old new else i) =
        p.map fun id i ↦ if id ∈ s :: sources then i.redirect old new else i := by
      rw [Program.update, Program.map_map]
      congr 1
      funext id i
      by_cases hid : id = s
      · simp [hid, hs]
      · simp [hid]
    have hfirst : old ∈ (a.fetch s).targets := by
      rw [h.fetch]
      exact hold s (List.mem_cons_self ..)
    have hcount : n + (s :: sources).length = n + 1 + sources.length := by
      rw [List.length_cons, Nat.add_right_comm, Nat.add_assoc]
    rw [List.foldl_cons, redirectOne, if_pos hfirst, ← hmap, hcount]
    exact ih (h.alter s (·.redirect old new)) hnodup hrest (n + 1)

theorem redirectTargets (h : a.Links p) (old new : InstrId) (accept : InstrId → Bool) :
    let r := ((a.jumpSources old).filter accept).foldl (redirectOne old new) (a, 0)
    r.1.Links (p.redirectTargets old new accept).1 ∧
      r.2 = (p.redirectTargets old new accept).2 := by
  rw [h.jumpSources, Program.redirectTargets]
  have hold : ∀ s ∈ (p.jumpSources old).filter accept, old ∈ (p.fetch s).targets := fun s hs ↦
    Program.mem_jumpSources_iff.1 (List.mem_filter.1 hs).1
  simpa using h.foldl_redirectOne (Program.jumpSources_nodup.filter _) hold 0

/-- Putting a slot before another is inserting at its position. -/
theorem linked_before (h : a.Links p) (hid : id ∈ p.order) (i : Instruction) :
    (a.linked (a.prev? id) (some id) i).Links (p.insertAt (p.position id) i) := by
  obtain ⟨pre, post, horder⟩ := List.append_of_mem hid
  have hpos : p.position id = pre.length := Program.position_eq_length horder
  have htake : p.order.take (p.position id) = pre := by rw [hpos, horder, List.take_left]
  have hdrop : p.order.drop (p.position id) = id :: post := by rw [hpos, horder, List.drop_left]
  have hlinked := h.linked (p.position id) i
  rwa [htake, ← Program.prev?_of_order horder, ← h.prev?, hdrop, List.head?_cons] at hlinked

/-- Putting a slot behind another is inserting at the position after it. -/
theorem linked_after (h : a.Links p) (hid : id ∈ p.order) (i : Instruction) :
    (a.linked (some id) (a.next? id) i).Links (p.insertAt (p.position id + 1) i) := by
  obtain ⟨pre, post, horder⟩ := List.append_of_mem hid
  have hpos : p.position id = pre.length := Program.position_eq_length horder
  have hcons : pre ++ id :: post = (pre ++ [id]) ++ post := by simp
  have htake : p.order.take (p.position id + 1) = pre ++ [id] := by
    rw [hpos, horder, hcons, List.take_left' (by simp)]
  have hdrop : p.order.drop (p.position id + 1) = post := by
    rw [hpos, horder, hcons, List.drop_left' (by simp)]
  have hlinked := h.linked (p.position id + 1) i
  rwa [htake, hdrop, ← Program.next?_of_order horder, ← h.next?, List.getLast?_concat] at hlinked

/-- Putting a slot behind the last one is adding the instruction at the end. -/
theorem linked_last (h : a.Links p) (i : Instruction) :
    (a.linked a.last? none i).Links (p.push i) := by
  have hlinked := h.linked p.size i
  rwa [Program.size, List.take_length, List.drop_length, List.head?_nil, ← Program.last?,
    ← h.last?] at hlinked

theorem ofList (is : List Instruction) : (Arena.ofList is).Links (Program.ofList is) := by
  suffices ∀ (a : Arena) (p : Program), a.Links p →
      (is.foldl (fun a i ↦ a.linked a.last? none i) a).Links (is.foldl Program.push p) from
    this _ _ links_empty
  induction is with
  | nil => exact fun _ _ h ↦ h
  | cons i is ih => exact fun _ _ h ↦ ih _ _ (h.linked_last i)

theorem of_toArena {l : Listing} (ha : l.toArena = .ok a) (hp : l.toProgram = .ok p) :
    a.Links p := by
  unfold Listing.toArena at ha
  unfold Listing.toProgram at hp
  split at ha <;> simp_all only [reduceCtorEq]
  cases ha
  cases hp
  exact ofList _

end Links

end Arena

end LoopInduction
