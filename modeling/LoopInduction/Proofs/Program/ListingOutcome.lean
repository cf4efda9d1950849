import LoopInduction.Proofs.Program.Arena
import LoopInduction.Proofs.Program.Listing

/-!
# The outcome of reading a listing

Reading a listing has two ends, and both are known exactly (`Listing.toProgram_outcome`). Where no
id is listed twice and every target is listed, the listing is read as the program whose ids are the
positions (`Listing.ReadAs`). Any other listing is refused, and the fault is determined
(`Listing.Refused`): a repeated id is looked for in the whole listing before any target is looked
at, and of several faults of one kind the first in the order of the listing counts.

The listing of a program repeats no id. So the one way in which it may not be read back is a jump to
nowhere.

## Main definitions

* `Listing.ReadAs` : a program is what a listing says.
* `Listing.Refused` : the fault of a listing that is no program.

## Main results

* `Listing.toProgram_outcome` : which listings are read, what is read, and why others are not.
-/

namespace LoopInduction.Listing

variable {l : Listing} {p : Program} {seen ids : List InstrId} {id : InstrId} {fault : Fault}

/-- What a listing is read as. -/
structure ReadAs (l : Listing) (p : Program) : Prop where
  size : p.size = l.length
  /-- The instruction at a position has it as its id and is the one that is listed there. Its
  targets are the positions of the entries with the listed targets as their ids. -/
  entry : ∀ k e, l[k]? = some e → p.order[k]? = some ⟨k⟩ ∧
    ∃ ts, p.get? ⟨k⟩ = some { e.2 with targets := ts } ∧
      List.Forall₂ (fun t u ↦ l.ids[u.index]? = some t) e.2.targets ts
  /-- The slots that the listing is read into are linked in the order of the program. -/
  linked : ∃ a, l.toArena = .ok a ∧ a.Links p

/-- The fault of a listing that is no program. -/
inductive Refused (l : Listing) : Fault → Prop
  /-- The first entry with an id that stands before it. -/
  | listedTwice {pre post : Listing} {e : InstrId × Instruction} (hl : l = pre ++ e :: post)
    (hnodup : pre.ids.Nodup) (h : e.1 ∈ pre.ids) : Refused l (.listedTwice e.1)
  /-- If no id is repeated, the first entry with a target that is not listed, and the first such
  target of it. -/
  | targetNotListed {pre post : Listing} {e : InstrId × Instruction} {before after : List InstrId}
    {t : InstrId} (hids : l.ids.Nodup) (hl : l = pre ++ e :: post)
    (hpre : ∀ x ∈ pre, ∀ u ∈ x.2.targets, u ∈ l.ids) (htargets : e.2.targets = before ++ t :: after)
    (hbefore : ∀ u ∈ before, u ∈ l.ids) (h : t ∉ l.ids) : Refused l (.targetNotListed e.1 t)

/-! ### Faults -/

/-- The first repetition stands behind ids that do not repeat any. -/
theorem firstRepeat?_eq_some_iff : firstRepeat? seen ids = some id ↔
    ∃ pre post, ids = pre ++ id :: post ∧ firstRepeat? seen pre = none ∧
      (id ∈ pre ∨ id ∈ seen) := by
  induction ids generalizing seen with
  | nil => simp [firstRepeat?]
  | cons x ids ih =>
    rw [firstRepeat?]
    by_cases hx : x ∈ seen
    · rw [if_pos hx, Option.some.injEq]
      constructor
      · rintro rfl
        exact ⟨[], ids, rfl, rfl, .inr hx⟩
      · rintro ⟨_ | ⟨y, pre⟩, post, hsplit, hnone, -⟩
        · exact (List.cons.inj hsplit).1
        · obtain rfl := (List.cons.inj hsplit).1
          rw [firstRepeat?, if_pos hx] at hnone
          cases hnone
    · rw [if_neg hx, ih]
      constructor
      · rintro ⟨pre, post, rfl, hnone, hmem⟩
        refine ⟨x :: pre, post, rfl, by rwa [firstRepeat?, if_neg hx], ?_⟩
        rw [List.mem_cons] at hmem ⊢
        tauto
      · rintro ⟨_ | ⟨y, pre⟩, post, hsplit, hnone, hmem⟩
        · obtain rfl := (List.cons.inj hsplit).1
          exact absurd (hmem.resolve_left List.not_mem_nil) hx
        · obtain ⟨rfl, rfl⟩ := List.cons.inj hsplit
          rw [firstRepeat?, if_neg hx] at hnone
          refine ⟨pre, post, rfl, hnone, ?_⟩
          rw [List.mem_cons] at hmem ⊢
          tauto

/-- The first jump that is not listed stands behind entries, and targets, that are. -/
theorem firstUnlisted?_eq_some_iff : l.firstUnlisted? = some fault ↔
    ∃ pre e post before t after, l = pre ++ e :: post ∧
      (∀ x ∈ pre, ∀ u ∈ x.2.targets, u ∈ l.ids) ∧ e.2.targets = before ++ t :: after ∧
      (∀ u ∈ before, u ∈ l.ids) ∧ t ∉ l.ids ∧ fault = .targetNotListed e.1 t := by
  rw [firstUnlisted?, List.findSome?_eq_some_iff]
  simp only [Option.map_eq_some_iff, Option.map_eq_none_iff, List.find?_eq_none,
    List.find?_eq_some_iff_append]
  constructor
  · rintro ⟨pre, e, post, hl, ⟨t, ⟨ht, before, after, htargets, hbefore⟩, rfl⟩, hpre⟩
    exact ⟨pre, e, post, before, t, after, hl, by simpa using hpre, htargets,
      by simpa using hbefore, by simpa using ht, rfl⟩
  · rintro ⟨pre, e, post, before, t, after, hl, hpre, htargets, hbefore, ht, rfl⟩
    exact ⟨pre, e, post, hl, ⟨t, ⟨by simpa using ht, before, after, htargets,
      by simpa using hbefore⟩, rfl⟩, by simpa using hpre⟩

theorem refused_listedTwice_iff :
    l.Refused (.listedTwice id) ↔ firstRepeat? [] l.ids = some id := by
  rw [firstRepeat?_eq_some_iff]
  constructor
  · rintro (⟨rfl, hnodup, h⟩ | _)
    exact ⟨_, _, List.map_append .., firstRepeat?_nil_eq_none_iff.2 hnodup, .inl h⟩
  · rintro ⟨pre, post, hids, hnone, h⟩
    obtain ⟨pre, post, hl, rfl, hpost⟩ := List.map_eq_append_iff.1 hids
    obtain ⟨e, post, rfl, rfl, rfl⟩ := List.map_eq_cons_iff.1 hpost
    exact .listedTwice hl (firstRepeat?_nil_eq_none_iff.1 hnone)
      (h.resolve_right List.not_mem_nil)

/-- The fault of a listing is the one that the two searches find, the one for repeated ids first. -/
theorem refused_iff : l.Refused fault ↔
    (∃ id, firstRepeat? [] l.ids = some id ∧ fault = .listedTwice id) ∨
      firstRepeat? [] l.ids = none ∧ l.firstUnlisted? = some fault := by
  constructor
  · rintro (⟨hl, hnodup, h⟩ | ⟨hids, hl, hpre, htargets, hbefore, ht⟩)
    · exact .inl ⟨_, refused_listedTwice_iff.1 (.listedTwice hl hnodup h), rfl⟩
    · exact .inr ⟨firstRepeat?_nil_eq_none_iff.2 hids, firstUnlisted?_eq_some_iff.2
        ⟨_, _, _, _, _, _, hl, hpre, htargets, hbefore, ht, rfl⟩⟩
  · rintro (⟨id, hrepeat, rfl⟩ | ⟨hnone, hunlisted⟩)
    · exact refused_listedTwice_iff.2 hrepeat
    · obtain ⟨pre, e, post, before, t, after, hl, hpre, htargets, hbefore, ht, rfl⟩ :=
        firstUnlisted?_eq_some_iff.1 hunlisted
      exact .targetNotListed (firstRepeat?_nil_eq_none_iff.1 hnone) hl hpre htargets hbefore ht

/-- A listing is refused for the reason that is found first. -/
theorem toProgram_eq_error_iff : l.toProgram = .error fault ↔ l.Refused fault := by
  rw [refused_iff, toProgram]
  cases firstRepeat? [] l.ids with
  | some id => simp [eq_comm]
  | none => cases l.firstUnlisted? <;> simp

/-! ### Programs -/

theorem exists_toProgram_iff :
    (∃ p, l.toProgram = .ok p) ↔ l.ids.Nodup ∧ ∀ e ∈ l, ∀ t ∈ e.2.targets, t ∈ l.ids := by
  simp only [toProgram_eq_ok_iff, exists_and_left, exists_eq, and_true]

theorem exists_toArena (h : l.toProgram = .ok p) : ∃ a, l.toArena = .ok a := by
  obtain ⟨hids, htargets, -⟩ := toProgram_eq_ok_iff.1 h
  rw [toArena, firstRepeat?_nil_eq_none_iff.2 hids, firstUnlisted?_eq_none_iff.2 htargets]
  exact ⟨_, rfl⟩

theorem readAs_of_toProgram (h : l.toProgram = .ok p) : l.ReadAs p := by
  have hentries := entries_of_toProgram h
  obtain ⟨-, htargets, -⟩ := toProgram_eq_ok_iff.1 h
  refine ⟨?_, fun k e he ↦ ?_, ?_⟩
  · rw [← Program.length_entries, hentries, List.length_map]
  · have hget : p.entries[k]? = some (l.renumbered e) := by
      rw [hentries, List.getElem?_map, he, Option.map_some]
    have horder : p.order[k]? = some (l.renumber e.1) := by
      rw [← Program.map_fst_entries, List.getElem?_map, hget]
      rfl
    have hk : k < l.length := (List.getElem?_eq_some_iff.1 he).1
    have hid : l.renumber e.1 = ⟨k⟩ := by
      rw [order_of_toProgram h] at horder
      simpa [hk, eq_comm] using horder
    refine ⟨hid ▸ horder, e.2.targets.map l.renumber, ?_, ?_⟩
    · rw [← hid]
      exact Program.mem_entries_iff.1 (List.mem_of_getElem? hget)
    · rw [List.forall₂_map_right_iff, List.forall₂_same]
      exact fun t ht ↦ List.getElem?_idxOf (htargets e (List.mem_of_getElem? he) t ht)
  · obtain ⟨a, ha⟩ := exists_toArena h
    exact ⟨a, ha, .of_toArena ha h⟩

/-- A listing is read exactly if no id is listed twice and every target is listed. It is then read
as it stands, with positions for ids; otherwise the fault names the first repeated id or, without
one, the first entry with a target that is not listed, and that target. A program is read back from
its listing exactly if its targets are live. -/
theorem toProgram_outcome (l : Listing) :
    ((∃ p, l.toProgram = .ok p) ↔ l.ids.Nodup ∧ ∀ e ∈ l, ∀ t ∈ e.2.targets, t ∈ l.ids) ∧
      (∀ p, l.toProgram = .ok p → l.ReadAs p) ∧
      (∀ fault, l.toProgram = .error fault ↔ l.Refused fault) ∧
      ∀ p : Program, (∃ q, toProgram p.entries = .ok q) ↔ p.TargetsLive :=
  ⟨exists_toProgram_iff, fun _ ↦ readAs_of_toProgram, fun _ ↦ toProgram_eq_error_iff,
    fun _ ↦ Program.exists_toProgram_entries_iff⟩

/-- A repeated id counts before a target that is not listed, wherever the two stand. -/
example : toProgram [(⟨7⟩, .goto ⟨9⟩ (.bool true)), (⟨8⟩, .skip), (⟨7⟩, .skip)] =
    .error (.listedTwice ⟨7⟩) := rfl

end LoopInduction.Listing
