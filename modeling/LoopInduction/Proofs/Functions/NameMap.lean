import LoopInduction.Functions.NameMap
import Mathlib.Data.List.Nodup
import Mathlib.Data.String.Basic

/-!
# Looking up in maps from names

An entry of a map is what its name is looked up to (`NameMap.mem_entries_iff_get?`), and changing
all values changes what every name is looked up to (`NameMap.get?_map`, `NameMap.get?_mapAccum`).
-/

namespace LoopInduction.NameMap

variable {α β σ : Type} {m : NameMap α} {name : String} {a : α}

theorem ext {m m' : NameMap α} (h : m.entries = m'.entries) : m = m' := by
  cases m
  cases m'
  cases h
  rfl

theorem names_nodup : (m.entries.map (·.1)).Nodup := by
  have h : (m.entries.map (·.1)).Pairwise (· < ·) := List.pairwise_map.2 m.sorted
  exact h.imp fun hlt ↦ ne_of_lt hlt

theorem mem_entries_iff_get? : (name, a) ∈ m.entries ↔ m.get? name = some a := by
  constructor
  · intro h
    obtain ⟨l₁, l₂, hl, hnot⟩ : ∃ l₁ l₂, m.entries = l₁ ++ (name, a) :: l₂ ∧
        ∀ e ∈ l₁, e.1 ≠ name := by
      obtain ⟨l₁, l₂, hl⟩ := List.append_of_mem h
      refine ⟨l₁, l₂, hl, fun e he heq ↦ ?_⟩
      have hnodup := m.names_nodup
      rw [hl, List.map_append, List.map_cons, List.nodup_append] at hnodup
      exact hnodup.2.2 e.1 (List.mem_map_of_mem he) name List.mem_cons_self heq
    have hfind : m.entries.find? (·.1 = name) = some (name, a) := by
      rw [hl, List.find?_append, List.find?_eq_none.2 (by simpa using hnot), Option.none_or,
        List.find?_cons_of_pos (by simp)]
    rw [get?, hfind, Option.map_some]
  · intro h
    obtain ⟨e, he, rfl⟩ := Option.map_eq_some_iff.1 h
    have hname : e.1 = name := by simpa using List.find?_some he
    exact hname ▸ List.mem_of_find?_eq_some he

theorem get?_map (f : String → α → β) (name : String) :
    (m.map f).get? name = (m.get? name).map (f name) := by
  rw [get?, get?, map, List.find?_map]
  cases h : m.entries.find? (·.1 = name) with
  | none => simp only [Function.comp_def, h, Option.map_none]
  | some e =>
    have hname : e.1 = name := by simpa using List.find?_some h
    simp only [Function.comp_def, h, Option.map_some, hname]

private theorem find?_mapAccumEntries {γ : Type} {f : σ → String → β → σ × γ}
    {c c' : String → α → β} {l : List (String × α)}
    (h : ∀ e ∈ l, ∀ t, (f t e.1 (c e.1 e.2)).1 = (f t e.1 (c' e.1 e.2)).1) (s : σ)
    (name : String) :
    ∃ t, ∀ k, k = c ∨ k = c' →
      ((mapAccumEntries f s (l.map fun e ↦ (e.1, k e.1 e.2))).2.find? (·.1 = name)).map (·.2) =
        ((l.find? (·.1 = name)).map (·.2)).map fun a ↦ (f t name (k name a)).2 := by
  induction l generalizing s with
  | nil => exact ⟨s, fun k _ ↦ rfl⟩
  | cons e l ih =>
    by_cases he : e.1 = name
    · refine ⟨s, fun k _ ↦ ?_⟩
      rw [List.map_cons, mapAccumEntries, List.find?_cons_of_pos (by simpa using he),
        List.find?_cons_of_pos (by simpa using he), ← he]
      rfl
    · obtain ⟨t, ht⟩ := ih (fun e' he' ↦ h e' (List.mem_cons_of_mem _ he')) (f s e.1 (c e.1 e.2)).1
      refine ⟨t, fun k hk ↦ ?_⟩
      have hstate : (f s e.1 (k e.1 e.2)).1 = (f s e.1 (c e.1 e.2)).1 := by
        rcases hk with rfl | rfl
        · rfl
        · exact (h e List.mem_cons_self s).symm
      rw [List.map_cons, mapAccumEntries, List.find?_cons_of_neg (by simpa using he),
        List.find?_cons_of_neg (by simpa using he), hstate]
      exact ht k hk

/-- Values that do to the state what other ones do are changed with the same state. -/
theorem exists_get?_mapAccum_map {γ : Type} {f : σ → String → β → σ × γ} (c c' : String → α → β)
    (h : ∀ e ∈ m.entries, ∀ t, (f t e.1 (c e.1 e.2)).1 = (f t e.1 (c' e.1 e.2)).1) (s : σ)
    (name : String) :
    ∃ t, ∀ k, k = c ∨ k = c' →
      ((m.map k).mapAccum f s).2.get? name = (m.get? name).map fun a ↦ (f t name (k name a)).2 :=
  find?_mapAccumEntries h s name

/-- A value is changed together with some state. -/
theorem get?_mapAccum (f : σ → String → α → σ × β) (s : σ) (name : String) :
    ∃ t, (m.mapAccum f s).2.get? name = (m.get? name).map fun a ↦ (f t name a).2 := by
  have hself : m.map (fun _ a ↦ a) = m := ext m.entries.map_id
  obtain ⟨t, ht⟩ := exists_get?_mapAccum_map (m := m) (f := f) (fun _ a ↦ a) (fun _ a ↦ a)
    (fun _ _ _ ↦ rfl) s name
  have hget := ht _ (.inl rfl)
  rw [hself] at hget
  exact ⟨t, hget⟩

/-- Changes that agree on the entries of a map change the map in the same way. -/
theorem mapAccum_congr {f g : σ → String → α → σ × β}
    (h : ∀ e ∈ m.entries, ∀ s, f s e.1 e.2 = g s e.1 e.2) (s : σ) :
    m.mapAccum f s = m.mapAccum g s := by
  have hentries : ∀ (l : List (String × α)) (s : σ), (∀ e ∈ l, ∀ s, f s e.1 e.2 = g s e.1 e.2) →
      mapAccumEntries f s l = mapAccumEntries g s l := by
    intro l s hl
    induction l generalizing s with
    | nil => rfl
    | cons e l ih =>
      rw [mapAccumEntries, mapAccumEntries, hl e List.mem_cons_self,
        ih _ fun e' he' ↦ hl e' (List.mem_cons_of_mem _ he')]
  simp only [mapAccum, hentries m.entries s h]

/-- What changed values have in common with those before is read off either of them. -/
theorem map_mapAccum {γ : Type} {f : σ → String → α → σ × β} {g : String → β → γ}
    {g' : String → α → γ} (h : ∀ s name a, g name (f s name a).2 = g' name a) (s : σ) :
    (m.mapAccum f s).2.map g = m.map g' := by
  have hentries : ∀ (l : List (String × α)) (s : σ),
      (mapAccumEntries f s l).2.map (fun e ↦ (e.1, g e.1 e.2)) =
        l.map fun e ↦ (e.1, g' e.1 e.2) := by
    intro l s
    induction l generalizing s with
    | nil => rfl
    | cons e l ih => rw [mapAccumEntries, List.map_cons, List.map_cons, h, ih]
  exact ext (hentries m.entries s)

/-- Changes that repeat themselves on what they leave do so over a whole map. -/
theorem mapAccum_mapAccum {f : σ → String → α → σ × α}
    (h : ∀ s name a, f s name (f s name a).2 = f s name a) (s : σ) :
    (m.mapAccum f s).2.mapAccum f s = m.mapAccum f s := by
  have hentries : ∀ (l : List (String × α)) (s : σ),
      mapAccumEntries f s (mapAccumEntries f s l).2 = mapAccumEntries f s l := by
    intro l s
    induction l generalizing s with
    | nil => rfl
    | cons e l ih => simp only [mapAccumEntries, h, ih]
  simp only [mapAccum, hentries m.entries s]

/-! ### Names -/

theorem names_map (f : String → α → β) : (m.map f).names = m.names := by
  rw [names, names, map, List.map_map]
  rfl

theorem names_mapAccum (f : σ → String → α → σ × β) (s : σ) : (m.mapAccum f s).2.names = m.names :=
  map_fst_mapAccumEntries f s m.entries

theorem mem_names_iff : name ∈ m.names ↔ ∃ a, m.get? name = some a := by
  simp only [names, List.mem_map, ← mem_entries_iff_get?, Prod.exists, exists_and_right,
    exists_eq_right]

theorem mem_names_insert_iff {key : String} :
    name ∈ (m.insert key a).names ↔ name = key ∨ name ∈ m.names := by
  have hentries : ∀ l : List (String × α),
      name ∈ (insertEntry key a l).map (·.1) ↔ name = key ∨ name ∈ l.map (·.1) := by
    intro l
    induction l with
    | nil => simp [insertEntry]
    | cons e l ih =>
      rw [insertEntry]
      split
      case isTrue => rw [List.map_cons, List.mem_cons]
      case isFalse =>
        split
        case isTrue he =>
          rw [List.map_cons, List.mem_cons, List.map_cons, List.mem_cons, he, ← or_assoc, or_self]
        case isFalse =>
          rw [List.map_cons, List.mem_cons, ih, List.map_cons, List.mem_cons, or_left_comm]
  exact hentries m.entries

/-- The names of some entries are those that stand in one of them. -/
theorem mem_names_ofList_iff {l : List (String × α)} :
    name ∈ (ofList l).names ↔ ∃ a, (name, a) ∈ l := by
  have hfold : ∀ (l : List (String × α)) (m : NameMap α),
      name ∈ (l.foldl (fun m e ↦ m.insert e.1 e.2) m).names ↔
        name ∈ m.names ∨ ∃ a, (name, a) ∈ l := by
    intro l m
    induction l generalizing m with
    | nil => simp
    | cons e l ih =>
      obtain ⟨key, b⟩ := e
      rw [List.foldl_cons, ih, mem_names_insert_iff]
      simp only [List.mem_cons, Prod.mk.injEq, exists_or, exists_and_left, exists_eq, and_true]
      tauto
  rw [ofList, hfold l empty]
  simp [names, empty]

end LoopInduction.NameMap
