import LoopInduction.Program.Listing
import LoopInduction.Proofs.Program.Jumps

/-!
# Reading a listing

A listing is read if no id is listed twice and every target is listed
(`Listing.toProgram_eq_ok_iff`). What is read has the entries of the listing with the positions as
ids (`Listing.entries_of_toProgram`). The entries of a program never list an id twice, so a program
can be read back if its targets are live (`Program.exists_toProgram_entries`). Reading it back once
more changes nothing (`Listing.toProgram_entries`).

## Main definitions

* `Listing.renumbered` : an entry with positions in place of ids.
-/

namespace LoopInduction

namespace Program

variable {p : Program}

/-- Instructions that are put at the end, one after the other, follow the others. -/
theorem entries_foldl_push (is : List Instruction) :
    (is.foldl push p).entries = p.entries ++ (p.freshIds is.length).zip is := by
  induction is generalizing p with
  | nil => simp [freshIds]
  | cons i is ih =>
    rw [List.foldl_cons, ih, entries_push, List.length_cons,
      freshIds_succ (k := p.size) (i := i), List.zip_cons_cons, List.append_assoc]
    rfl

theorem entries_ofList (is : List Instruction) :
    (ofList is).entries = ((List.range is.length).map InstrId.mk).zip is := by
  rw [ofList, entries_foldl_push]
  simp [empty, entries, freshIds]

theorem map_snd_entries_ofList (is : List Instruction) :
    (ofList is).entries.map Prod.snd = is := by
  rw [entries_ofList, List.map_snd_zip (by simp)]

theorem order_ofList (is : List Instruction) :
    (ofList is).order = (List.range is.length).map InstrId.mk := by
  rw [← map_fst_entries, entries_ofList, List.map_fst_zip (by simp)]

end Program

namespace Listing

variable {l : Listing} {p : Program}

/-- The entry with positions in the listing in place of ids. -/
def renumbered (l : Listing) (e : InstrId × Instruction) : InstrId × Instruction :=
  (l.renumber e.1, { e.2 with targets := e.2.targets.map l.renumber })

theorem firstRepeat?_eq_none_iff {seen ids : List InstrId} :
    firstRepeat? seen ids = none ↔ ids.Nodup ∧ ∀ id ∈ ids, id ∉ seen := by
  induction ids generalizing seen with
  | nil => simp [firstRepeat?]
  | cons id ids ih =>
    rw [firstRepeat?, List.nodup_cons]
    by_cases hid : id ∈ seen
    · simp [hid]
    · rw [if_neg hid, ih]
      simp only [List.mem_cons, not_or, forall_eq_or_imp, hid, not_false_eq_true, true_and]
      constructor
      · rintro ⟨hnodup, hseen⟩
        exact ⟨⟨fun hmem ↦ (hseen id hmem).1 rfl, hnodup⟩, fun x hx ↦ (hseen x hx).2⟩
      · rintro ⟨⟨hmem, hnodup⟩, hseen⟩
        exact ⟨hnodup, fun x hx ↦ ⟨fun e ↦ hmem (e ▸ hx), hseen x hx⟩⟩

theorem firstRepeat?_nil_eq_none_iff {ids : List InstrId} :
    firstRepeat? [] ids = none ↔ ids.Nodup := by
  rw [firstRepeat?_eq_none_iff]
  exact and_iff_left fun _ _ ↦ List.not_mem_nil

theorem firstUnlisted?_eq_none_iff :
    l.firstUnlisted? = none ↔ ∀ e ∈ l, ∀ t ∈ e.2.targets, t ∈ l.ids := by
  simp [firstUnlisted?, List.findSome?_eq_none_iff]

/-- A listing is a program if no id is listed twice and every target is listed. -/
theorem toProgram_eq_ok_iff : l.toProgram = .ok p ↔
    l.ids.Nodup ∧ (∀ e ∈ l, ∀ t ∈ e.2.targets, t ∈ l.ids) ∧
      p = .ofList (l.map fun e ↦ (l.renumbered e).2) := by
  rw [← firstRepeat?_nil_eq_none_iff, ← firstUnlisted?_eq_none_iff, toProgram]
  split
  · next id hid => simp [hid]
  · next fault hid hfault => simp [hfault]
  · next hid hfault =>
    rw [Except.ok.injEq, eq_comm]
    simp only [hid, hfault, true_and]
    rfl

/-- The ids of a program that was listed are the positions. -/
theorem order_of_toProgram (h : l.toProgram = .ok p) :
    p.order = (List.range l.length).map InstrId.mk := by
  obtain ⟨-, -, rfl⟩ := toProgram_eq_ok_iff.1 h
  rw [Program.order_ofList, List.length_map]

/-- A program that was listed has the entries of the listing with the positions as ids. -/
theorem entries_of_toProgram (h : l.toProgram = .ok p) : p.entries = l.map l.renumbered := by
  obtain ⟨hids, -, rfl⟩ := toProgram_eq_ok_iff.1 h
  rw [Program.entries_ofList]
  refine List.ext_getElem (by simp) fun k hk hk' ↦ ?_
  have hk : k < l.length := by simpa using hk'
  have hpos : l.ids.idxOf l[k].1 = k := by
    have := hids.idxOf_getElem k (by simpa [ids] using hk)
    simpa [ids] using this
  simp [renumbered, renumber, hpos]

end Listing

namespace Program

variable {p : Program}

/-- A program can be written to a listing and read back if its targets are live. -/
theorem exists_toProgram_entries_iff :
    (∃ q, Listing.toProgram p.entries = .ok q) ↔ p.TargetsLive := by
  have hids : Listing.ids p.entries = p.order := map_fst_entries
  simp only [Listing.toProgram_eq_ok_iff, hids, exists_and_left, exists_eq, and_true,
    p.order_nodup, true_and, TargetsLive, Prod.forall, mem_entries_iff]

/-- What is read back has the entries of the program with the positions as ids. -/
theorem exists_toProgram_entries (h : p.TargetsLive) :
    ∃ q, Listing.toProgram p.entries = .ok q ∧
      q.entries = p.entries.map (Listing.renumbered p.entries) := by
  obtain ⟨q, hq⟩ := exists_toProgram_entries_iff.2 h
  exact ⟨q, hq, Listing.entries_of_toProgram hq⟩

end Program

/-! ### Reading back what was read -/

namespace Listing

variable {l : Listing} {p : Program}

/-- The targets of a program that was listed are live. -/
theorem targetsLive_of_toProgram (h : l.toProgram = .ok p) : p.TargetsLive := by
  have hentries := entries_of_toProgram h
  obtain ⟨-, htargets, -⟩ := toProgram_eq_ok_iff.1 h
  intro id i hi t ht
  have hmem : (id, i) ∈ l.map l.renumbered := hentries ▸ Program.mem_entries_iff.2 hi
  obtain ⟨e, he, heq⟩ := List.mem_map.1 hmem
  cases heq
  obtain ⟨u, hu, rfl⟩ := List.mem_map.1 ht
  obtain ⟨x, hx, rfl⟩ := List.mem_map.1 (htargets e he u hu)
  rw [← Program.map_fst_entries, hentries, List.map_map]
  exact List.mem_map.2 ⟨x, hx, rfl⟩

/-- The ids of a program that was listed are positions already. -/
theorem renumber_entries (h : l.toProgram = .ok p) {id : InstrId} (hid : id ∈ p.order) :
    renumber p.entries id = id := by
  have horder := order_of_toProgram h
  have hlt : p.order.idxOf id < p.order.length := List.idxOf_lt_length_of_mem hid
  have hget : p.order[p.order.idxOf id] = id := List.getElem_idxOf hlt
  have hids : ids p.entries = p.order := Program.map_fst_entries
  rw [renumber, hids]
  simpa only [horder, List.getElem_map, List.getElem_range] using hget

/-- Reading back what was read from a listing changes nothing. -/
theorem toProgram_entries (h : l.toProgram = .ok p) : toProgram p.entries = .ok p := by
  have hlive := targetsLive_of_toProgram h
  have hsame : p.entries.map (renumbered p.entries) = p.entries := by
    refine (List.map_congr_left fun e he ↦ ?_).trans (List.map_id _)
    have hget : p.get? e.1 = some e.2 := Program.mem_entries_iff.1 he
    have htargets : e.2.targets.map (renumber p.entries) = e.2.targets :=
      (List.map_congr_left fun t ht ↦ renumber_entries h (hlive e.1 e.2 hget t ht)).trans
        (List.map_id _)
    have hid : renumber p.entries e.1 = e.1 :=
      renumber_entries h (Program.mem_order_iff_get?.2 ⟨e.2, hget⟩)
    rw [renumbered, htargets, hid]
    rfl
  have hofList {l : Listing} {p : Program} (h : l.toProgram = .ok p) :
      p = .ofList (p.entries.map Prod.snd) := by
    obtain ⟨-, -, rfl⟩ := toProgram_eq_ok_iff.1 h
    rw [Program.map_snd_entries_ofList]
  obtain ⟨q, hq, hentries⟩ := Program.exists_toProgram_entries hlive
  rw [hq, hofList h, hofList hq, hentries, hsame]

end Listing

end LoopInduction
