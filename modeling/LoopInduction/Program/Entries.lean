import LoopInduction.Program.Basic

/-!
# A program as a list of entries

`Program.entries` is the view through which programs are reasoned about: the instructions with their
ids in program order. The ids in it are those of the order (`map_fst_entries`), and looking an id up
is looking for it in the list (`mem_entries_iff`). The main statements say what each change does:
`entries_insertAt`, `entries_erase`, `entries_map`, `entries_update` and `entries_push`.
-/

namespace LoopInduction.Program

variable {p : Program}

/-! ### Looking up -/

theorem mem_order_iff_get? {id : InstrId} : id ∈ p.order ↔ ∃ i, p.get? id = some i := by
  rw [p.mem_order_iff id, Option.isSome_iff_exists, get?]

@[simp] theorem contains_iff {id : InstrId} : p.contains id = true ↔ id ∈ p.order :=
  mem_order_iff_contains.symm

@[simp] theorem map_fst_entries : p.entries.map Prod.fst = p.order := by
  simp [entries, Function.comp_def]

theorem length_entries : p.entries.length = p.size := by
  simp [entries, size]

theorem mem_entries_iff {id : InstrId} {i : Instruction} :
    (id, i) ∈ p.entries ↔ p.get? id = some i := by
  simp only [entries, List.mem_map, Prod.mk.injEq, mem_order_iff_get?, fetch]
  constructor
  · rintro ⟨id', ⟨j, hj⟩, rfl, rfl⟩
    simp [hj]
  · intro h
    exact ⟨id, ⟨i, h⟩, rfl, by simp [h]⟩

theorem entries_nodup : (p.entries.map Prod.fst).Nodup := by
  rw [map_fst_entries]; exact p.order_nodup

/-! ### Changes -/

@[simp] theorem order_insertAt (position : Nat) (i : Instruction) :
    (p.insertAt position i).order =
      p.order.take position ++ p.fresh :: p.order.drop position := rfl

@[simp] theorem order_erase (id : InstrId) : (p.erase id).order = p.order.filter (· ≠ id) := rfl

@[simp] theorem order_map (f : InstrId → Instruction → Instruction) :
    (p.map f).order = p.order := rfl

theorem get?_insertAt (position : Nat) (i : Instruction) (id : InstrId) :
    (p.insertAt position i).get? id = if id = p.fresh then some i else p.get? id := by
  simp only [get?, insertAt, fresh, Array.getElem?_push, InstrId.ext_iff]
  split <;> simp

theorem get?_erase (id id' : InstrId) :
    (p.erase id).get? id' = if id' = id then none else p.get? id' := by
  simp only [get?, erase, Array.getElem?_setIfInBounds, InstrId.ext_iff]
  by_cases h : id.index = id'.index
  · simp only [h, if_true]
    split <;> rfl
  · simp [h, Ne.symm h]

theorem get?_map (f : InstrId → Instruction → Instruction) (id : InstrId) :
    (p.map f).get? id = (p.get? id).map (f id) := by
  simp only [get?, map, Array.getElem?_mapIdx]
  cases p.slots[id.index]? with
  | none => rfl
  | some o => cases o <;> rfl

theorem get?_update (id : InstrId) (f : Instruction → Instruction) (id' : InstrId) :
    (p.update id f).get? id' = if id' = id then (p.get? id').map f else p.get? id' := by
  rw [update, get?_map]
  split <;> simp

theorem fetch_insertAt_fresh (position : Nat) (i : Instruction) :
    (p.insertAt position i).fetch p.fresh = i := by
  rw [fetch, get?_insertAt, if_pos rfl]
  rfl

/-- A new instruction stands in front of the one at its position. -/
theorem entries_insertAt (position : Nat) (i : Instruction) :
    (p.insertAt position i).entries =
      p.entries.take position ++ (p.fresh, i) :: p.entries.drop position := by
  have hfetch : ∀ id ∈ p.order, (p.insertAt position i).fetch id = p.fetch id := by
    intro id hid
    have hne : id ≠ p.fresh := fun h ↦ p.fresh_notMem_order (h ▸ hid)
    rw [fetch, get?_insertAt, if_neg hne, fetch]
  have hmap : ∀ ids ⊆ p.order, ids.map (fun id ↦ (id, (p.insertAt position i).fetch id)) =
      ids.map fun id ↦ (id, p.fetch id) :=
    fun ids h ↦ List.map_congr_left fun id hid ↦ by rw [hfetch id (h hid)]
  rw [entries, order_insertAt, List.map_append, List.map_cons, fetch_insertAt_fresh,
    hmap _ (List.take_subset ..), hmap _ (List.drop_subset ..), entries, List.map_take,
    List.map_drop]

/-- A new instruction at the end follows all others. -/
theorem entries_push (i : Instruction) : (p.push i).entries = p.entries ++ [(p.fresh, i)] := by
  rw [push, entries_insertAt, ← length_entries, List.take_length, List.drop_length]

/-- Taking an instruction out leaves all others, in their order. -/
theorem entries_erase (id : InstrId) : (p.erase id).entries = p.entries.filter (·.1 ≠ id) := by
  simp only [entries, order_erase, List.filter_map, Function.comp_def]
  refine List.map_congr_left fun id' h ↦ ?_
  have h' : id' ≠ id := by simpa using (List.mem_filter.1 h).2
  rw [fetch, get?_erase, if_neg h', fetch]

/-- Changing every instruction in its place changes every entry. -/
theorem entries_map (f : InstrId → Instruction → Instruction) :
    (p.map f).entries = p.entries.map fun e ↦ (e.1, f e.1 e.2) := by
  simp only [entries, order_map, List.map_map, Function.comp_def]
  refine List.map_congr_left fun id h ↦ ?_
  obtain ⟨i, hi⟩ := mem_order_iff_get?.1 h
  simp [fetch, get?_map, hi]

/-- Changing one instruction in its place changes its entry. -/
theorem entries_update (id : InstrId) (f : Instruction → Instruction) :
    (p.update id f).entries = p.entries.map fun e ↦ (e.1, if e.1 = id then f e.2 else e.2) :=
  entries_map _

end LoopInduction.Program
