/-!
# Maps from names

A `NameMap` holds at most one value for each name, in the order of the names. Names are ordered by
their characters' code points, which is also the order of their UTF-8 bytes.

`get?_insert` says what inserting does; the order is part of the type.
-/

namespace LoopInduction

/-- Values by name, in the order of the names. -/
structure NameMap (α : Type) where
  entries : List (String × α)
  sorted : entries.Pairwise (·.1 < ·.1)

namespace NameMap

variable {α β σ : Type}

instance [DecidableEq α] : DecidableEq (NameMap α) := fun a b ↦
  decidable_of_iff (a.entries = b.entries) ⟨fun h ↦ by cases a; cases b; simp_all, fun h ↦ h ▸ rfl⟩

/-- The map without entries. -/
def empty : NameMap α where
  entries := []
  sorted := .nil

instance : Inhabited (NameMap α) := ⟨empty⟩

/-- Puts an entry into its place in a sorted list; an entry with its name is replaced. -/
def insertEntry (name : String) (a : α) : List (String × α) → List (String × α)
  | [] => [(name, a)]
  | (k, b) :: rest =>
    if name < k then (name, a) :: (k, b) :: rest
    else if k = name then (name, a) :: rest
    else (k, b) :: insertEntry name a rest

theorem eq_or_mem_of_mem_insertEntry {name : String} {a : α} {l : List (String × α)}
    {e : String × α} (h : e ∈ insertEntry name a l) : e = (name, a) ∨ e ∈ l := by
  induction l with
  | nil => simpa [insertEntry] using h
  | cons x l ih =>
    unfold insertEntry at h
    split at h
    · simpa using h
    · split at h
      · rcases List.mem_cons.1 h with h | h
        · exact .inl h
        · exact .inr (List.mem_cons_of_mem _ h)
      · rcases List.mem_cons.1 h with rfl | h
        · exact .inr (List.mem_cons_self ..)
        · exact (ih h).imp_right (List.mem_cons_of_mem _)

theorem sorted_insertEntry {name : String} {a : α} {l : List (String × α)}
    (h : l.Pairwise (·.1 < ·.1)) : (insertEntry name a l).Pairwise (·.1 < ·.1) := by
  induction l with
  | nil => simp [insertEntry]
  | cons x l ih =>
    rw [List.pairwise_cons] at h
    unfold insertEntry
    split
    · next hlt =>
      refine List.pairwise_cons.2 ⟨fun e he ↦ ?_, List.pairwise_cons.2 h⟩
      rcases List.mem_cons.1 he with rfl | he
      · exact hlt
      · exact String.lt_trans hlt (h.1 e he)
    · split
      · next heq => exact List.pairwise_cons.2 ⟨fun e he ↦ heq ▸ h.1 e he, h.2⟩
      · next hlt hne =>
        refine List.pairwise_cons.2 ⟨fun e he ↦ ?_, ih h.2⟩
        rcases eq_or_mem_of_mem_insertEntry he with rfl | he
        · exact Decidable.byContradiction fun h ↦
            hne (String.le_antisymm (String.not_lt.1 hlt) (String.not_lt.1 h))
        · exact h.1 e he

/-- Sets the value of a name. -/
def insert (m : NameMap α) (name : String) (a : α) : NameMap α where
  entries := insertEntry name a m.entries
  sorted := sorted_insertEntry m.sorted

/-- The value of a name. -/
def get? (m : NameMap α) (name : String) : Option α :=
  (m.entries.find? (·.1 = name)).map (·.2)

/-- The names. -/
def names (m : NameMap α) : List String :=
  m.entries.map (·.1)

/-- Changes every value. -/
def map (f : String → α → β) (m : NameMap α) : NameMap β where
  entries := m.entries.map fun e ↦ (e.1, f e.1 e.2)
  sorted := by
    rw [List.pairwise_map]
    exact m.sorted

/-- Changes the entries one after the other, each with the state that those before it left. -/
def mapAccumEntries (f : σ → String → α → σ × β) (s : σ) :
    List (String × α) → σ × List (String × β)
  | [] => (s, [])
  | (k, a) :: rest =>
    let r := f s k a
    let rs := mapAccumEntries f r.1 rest
    (rs.1, (k, r.2) :: rs.2)

theorem map_fst_mapAccumEntries (f : σ → String → α → σ × β) (s : σ) (l : List (String × α)) :
    (mapAccumEntries f s l).2.map (·.1) = l.map (·.1) := by
  induction l generalizing s with
  | nil => rfl
  | cons e l ih => simp [mapAccumEntries, ih]

/-- Changes the values in the order of their names, each with the state that those before it
left. -/
def mapAccum (f : σ → String → α → σ × β) (s : σ) (m : NameMap α) : σ × NameMap β :=
  let r := mapAccumEntries f s m.entries
  (r.1,
    { entries := r.2
      sorted := by
        have h : (m.entries.map (·.1)).Pairwise (· < ·) := List.pairwise_map.2 m.sorted
        rw [← map_fst_mapAccumEntries f s] at h
        exact List.pairwise_map.1 h })

/-- The map of some entries; of equal names the last one counts. -/
def ofList (l : List (String × α)) : NameMap α :=
  l.foldl (fun m e ↦ m.insert e.1 e.2) empty

end NameMap

end LoopInduction
