import LoopInduction.Program.Json
import LoopInduction.Proofs.Instruction.Json
import LoopInduction.Proofs.Program.Listing
import Mathlib.Data.List.Perm.Subperm

/-!
# Reading back programs

A program is read back if its targets are live and the reader may open as many brackets as its text
has; what is read has positions in place of ids (`Program.ofJson_toJson_eq_ok_iff`,
`Listing.entries_of_toProgram`). A program that came out of a text is *settled*: its ids are
positions already, so reading it back gives the same program, slot by slot
(`Program.settled_of_ofJson`, `Program.Settled.ofJson_toJson`).

## Main definitions

* `Program.Addressable` : all ids and targets have 32 bits.
* `Program.Settled` : the ids are positions, and the program fits a text of the given depth.

## Main results

* `Program.ofJson_toJson_eq_ok_iff` : which programs are read back.
* `Program.settled_of_ofJson` : every program that is read is settled.
-/

namespace LoopInduction

open Json (Value)
open Json.Value

namespace Program

variable {p q : Program} {d : Nat} {v : Value}

/-- All ids and targets have 32 bits. -/
def Addressable (p : Program) : Prop :=
  ∀ e ∈ p.entries, e.2.Addressable e.1

theorem faithful_toJson (h : p.Addressable) : p.toJson.Faithful :=
  faithful_record_iff.2 (List.forall_mem_singleton.2
    (faithful_list_iff.2 fun e he ↦ Instruction.faithful_toListedJson (h e he)))

theorem depth_toJson_le_iff : p.toJson.depth ≤ d ↔
    ∃ e, d = e + 2 ∧ ∀ x ∈ p.entries, (x.2.toListedJson x.1).depth ≤ e := by
  rw [toJson, depth_record_le_iff]
  simp only [List.mem_singleton, forall_eq, depth_list_le_iff]
  constructor
  · rintro ⟨k, rfl, e, rfl, h⟩
    exact ⟨e, rfl, h⟩
  · rintro ⟨e, rfl, h⟩
    exact ⟨e + 1, rfl, e, rfl, h⟩

private theorem listingOfJson?_succ (d : Nat) (p : Program) :
    listingOfJson? (d + 1) p.toJson =
      (list (fun e ↦ e.2.toListedJson e.1) p.entries).items? d Instruction.ofListedJson? := by
  have hfields? : p.toJson.fields? ["instructions"] =
      some [some (list (fun e ↦ e.2.toListedJson e.1) p.entries)] :=
    fields?_record rfl (List.nodup_singleton _)
  simp only [listingOfJson?, hfields?]

/-- The entries of a program are read back where their brackets may be opened. -/
theorem listingOfJson?_toJson_eq_some_iff {l : Listing} (h : p.Addressable) :
    listingOfJson? d p.toJson = some l ↔ p.toJson.depth ≤ d ∧ l = p.entries := by
  have hback (e : Nat) (hdepth : ∀ x ∈ p.entries, (x.2.toListedJson x.1).depth ≤ e) :
      listingOfJson? (e + 2) p.toJson = some p.entries := by
    rw [listingOfJson?_succ]
    exact items?_list fun x hx ↦ Instruction.ofListedJson?_toListedJson (h x hx) (hdepth x hx)
  rw [depth_toJson_le_iff]
  constructor
  · intro hread
    obtain _ | d := d
    · cases hread
    · have hitems := (listingOfJson?_succ d p).symm.trans hread
      obtain ⟨e, rfl, hall⟩ := exists_of_items?_list hitems
      have hdepth : ∀ x ∈ p.entries, (x.2.toListedJson x.1).depth ≤ e := by
        intro x hx
        obtain ⟨y, hy⟩ := hall x hx
        exact Instruction.depth_toListedJson_of_ofListedJson? (h x hx) hy
      exact ⟨⟨e, rfl, hdepth⟩, Option.some.inj (hread.symm.trans (hback e hdepth))⟩
  · rintro ⟨⟨e, rfl, hdepth⟩, rfl⟩
    exact hback e hdepth

theorem ofJson_eq_ok_iff : ofJson d v = .ok q ↔
    ∃ l, listingOfJson? d v = some l ∧ l.toProgram = .ok q := by
  unfold ofJson
  split
  · next hl => simp [hl]
  · next l hl =>
    simp only [hl, Option.some.injEq, exists_eq_left']
    cases l.toProgram <;> simp

/-- A program is read back if the reader may open its brackets and its entries are a program. -/
theorem ofJson_toJson_eq_ok_iff (h : p.Addressable) :
    ofJson d p.toJson = .ok q ↔ p.toJson.depth ≤ d ∧ Listing.toProgram p.entries = .ok q := by
  rw [ofJson_eq_ok_iff]
  simp only [listingOfJson?_toJson_eq_some_iff h, and_assoc, exists_and_left, exists_eq_left]

/-- A program is read back if its targets are live and the reader may open its brackets. -/
theorem exists_ofJson_toJson_iff (h : p.Addressable) :
    (∃ q, ofJson d p.toJson = .ok q) ↔ p.TargetsLive ∧ p.toJson.depth ≤ d := by
  simp only [ofJson_toJson_eq_ok_iff h, exists_and_left, exists_toProgram_entries_iff]
  exact and_comm

/-! ### Programs that were read -/

/-- The ids are positions and the program fits a text of the given depth. -/
structure Settled (d : Nat) (p : Program) : Prop where
  addressable : p.Addressable
  toProgram_entries : Listing.toProgram p.entries = .ok p
  depth_le : p.toJson.depth ≤ d

/-- A settled program is read back as it is. -/
theorem Settled.ofJson_toJson (h : p.Settled d) : ofJson d p.toJson = .ok p :=
  (ofJson_toJson_eq_ok_iff h.addressable).2 ⟨h.depth_le, h.toProgram_entries⟩

end Program

namespace Listing

variable {l : Listing} {p : Program} {d : Nat}

/-- Different words are no more than there are words. -/
theorem length_le_of_isWord (hids : l.ids.Nodup) (hwords : ∀ id ∈ l.ids, id.IsWord) :
    l.length ≤ UInt32.size := by
  have hnodup : (l.ids.map InstrId.index).Nodup :=
    (List.nodup_map_iff fun a b h ↦ InstrId.ext h).2 hids
  have hsub : l.ids.map InstrId.index ⊆ List.range UInt32.size := by
    intro n hn
    obtain ⟨id, hid, rfl⟩ := List.mem_map.1 hn
    exact List.mem_range.2 (hwords id hid)
  have hle := (List.subperm_of_subset hnodup hsub).length_le
  simpa [ids] using hle

theorem renumber_isWord (hids : l.ids.Nodup) (hwords : ∀ id ∈ l.ids, id.IsWord) {id : InstrId}
    (hid : id ∈ l.ids) : (l.renumber id).IsWord := by
  have hlt : l.ids.idxOf id < l.length := by
    simpa [ids] using List.idxOf_lt_length_of_mem hid
  exact Nat.lt_of_lt_of_le hlt (length_le_of_isWord hids hwords)

end Listing

namespace Program

variable {p : Program} {d : Nat} {v : Value}

theorem exists_of_listingOfJson? {l : Listing} (h : listingOfJson? d v = some l) :
    ∃ e, d = e + 2 ∧ ∀ x ∈ l, ∃ y, Instruction.ofListedJson? e y = some x := by
  unfold listingOfJson? at h
  split at h
  · next k entries _ =>
    obtain ⟨e, rfl, hitems⟩ := exists_of_items? h
    exact ⟨e, rfl, hitems⟩
  · cases h

/-- Every program that is read is settled. Four brackets are there for the entries and for what an
entry holds by default. -/
theorem settled_of_ofJson (h : ofJson (d + 4) v = .ok p) : p.Settled (d + 4) := by
  obtain ⟨l, hl, hp⟩ := ofJson_eq_ok_iff.1 h
  obtain ⟨e, he, hitems⟩ := exists_of_listingOfJson? hl
  cases he
  obtain ⟨hids, htargets, -⟩ := Listing.toProgram_eq_ok_iff.1 hp
  have hwords : ∀ id ∈ l.ids, id.IsWord := by
    intro id hid
    obtain ⟨x, hx, rfl⟩ := List.mem_map.1 hid
    obtain ⟨y, hy⟩ := hitems x hx
    exact (Instruction.addressable_of_ofListedJson? hy).1
  have hentries : p.entries = l.map l.renumbered := Listing.entries_of_toProgram hp
  have haddressable : p.Addressable := by
    rw [Addressable, hentries, List.forall_mem_map]
    intro x hx
    refine ⟨Listing.renumber_isWord hids hwords (List.mem_map_of_mem hx), ?_⟩
    refine List.forall_mem_map.2 fun t ht ↦ ?_
    exact Listing.renumber_isWord hids hwords (htargets x hx t ht)
  have hdepth : p.toJson.depth ≤ d + 4 := by
    rw [depth_toJson_le_iff]
    refine ⟨d + 2, rfl, ?_⟩
    rw [hentries, List.forall_mem_map]
    intro x hx
    obtain ⟨y, hy⟩ := hitems x hx
    have hread : (x.2.toListedJson x.1).depth ≤ d + 2 := Instruction.depth_of_ofListedJson? hy
    -- the depth of an entry depends neither on its id nor on its targets
    rw [Instruction.depth_toListedJson_le_iff] at hread ⊢
    exact hread
  exact ⟨haddressable, Listing.toProgram_entries hp, hdepth⟩

end Program

end LoopInduction
