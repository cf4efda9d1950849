import LoopInduction.Functions.Refresh
import LoopInduction.Program.Text
import LoopInduction.Proofs.Program.Arena

/-!
# The numbers of a program

Numbering goes through a program once, with the next location number and the number of labels given
so far as its state. What it leaves at an instruction does not depend on that walk: the location
number is the position of the instruction, counted from where the walk began, and the target number
is the label that the listing shows (`Program.numbered_eq`). Walking and listing count the same
instructions, both in program order, so the ids and the empty slots have no part in it.

## Main definitions

* `Program.unnumbered` : the program without its numbers.
* `Program.instructions` : the instructions in program order.
* `Arena.numbered` : numbering as a walk over linked slots.

## Main results

* `Program.numbersFrom_eq` : the numbers that a walk gives, each for itself.
* `Program.numbered_eq` : a numbered program, each instruction for itself.
* `Program.map_locationNumber_numbered`, `Program.filterMap_targetNumber_numbered` : the numbers of
  a numbered program in their order.
* `Program.unnumbered_numbered`, `Program.numbered_numbered` : numbering changes the numbers only,
  and doing it again changes nothing.
* `Arena.Links.numbered` : numbering linked slots leaves the links.
-/

namespace LoopInduction

/-- An instruction with other numbers. -/
def Instruction.withNumbers (numbers : UInt32 × Option UInt32) (i : Instruction) : Instruction :=
  { i with locationNumber := numbers.1, targetNumber := numbers.2 }

/-- An instruction without its numbers. -/
def Instruction.unnumbered (i : Instruction) : Instruction :=
  { i with locationNumber := 0, targetNumber := none }

namespace Program

variable {p : Program} {isTarget : InstrId → Bool} {ids : List InstrId} {id : InstrId}
  {location labels : Nat}

/-- The program without its numbers. -/
def unnumbered (p : Program) : Program :=
  p.map fun _ i ↦ i.unnumbered

/-- The instructions in program order. -/
def instructions (p : Program) : List Instruction :=
  p.entries.map Prod.snd

theorem length_instructions : p.instructions.length = p.size := by
  rw [instructions, List.length_map, length_entries]

/-! ### The numbers that a walk gives -/

/-- An instruction gets its place in the walk, and, if it is jumped to, its place among those that
are. -/
theorem numbersFrom_eq (h : ids.Nodup) : numbersFrom isTarget location labels ids =
    ids.map fun id ↦ (id, .ofNat (location + ids.idxOf id),
      ((ids.filter isTarget).idxOf? id).map fun k ↦ .ofNat (labels + k + 1)) := by
  induction ids generalizing location labels with
  | nil => rfl
  | cons x ids ih =>
    obtain ⟨hx, hids⟩ := List.nodup_cons.1 h
    have hplace : ∀ y ∈ ids, (x :: ids).idxOf y = ids.idxOf y + 1 := fun y hy ↦
      List.idxOf_cons_ne ids (ne_of_mem_of_not_mem hy hx).symm
    rw [numbersFrom, List.map_cons, List.idxOf_cons_self, Nat.add_zero]
    split
    case isTrue ht =>
      rw [List.filter_cons_of_pos ht, List.idxOf?_cons, if_pos BEq.rfl, ih hids]
      congr 1
      refine List.map_congr_left fun y hy ↦ ?_
      have hne : ¬ (x == y) = true := by simpa using (ne_of_mem_of_not_mem hy hx).symm
      rw [hplace y hy, List.idxOf?_cons, if_neg hne, Option.map_map, Nat.add_assoc,
        Nat.add_comm 1 (ids.idxOf y)]
      congr 3
      funext k
      simp only [Function.comp_apply]
      congr 1
      omega
    case isFalse ht =>
      have hnone : (ids.filter isTarget).idxOf? x = none :=
        List.idxOf?_eq_none_iff.2 fun hmem ↦ hx (List.mem_of_mem_filter hmem)
      rw [List.filter_cons_of_neg ht, hnone, ih hids]
      congr 1
      refine List.map_congr_left fun y hy ↦ ?_
      rw [hplace y hy, Nat.add_assoc, Nat.add_comm 1 (ids.idxOf y)]

/-- The location number of an instruction is its position, its target number its label. -/
theorem numbered_eq (p : Program) (location : Nat) : p.numbered location = p.map fun id i ↦ { i with
    locationNumber := .ofNat (location + p.position id)
    targetNumber := p.label? id } := by
  rw [numbered]
  refine map_congr fun id i hi ↦ ?_
  have hid : id ∈ p.order := mem_order_iff_get?.2 ⟨i, hi⟩
  rw [numbersFrom_eq p.order_nodup, List.lookup_graph _ hid]
  simp only [Nat.zero_add]
  rfl

/-! ### What numbering leaves -/

/-- Numbering changes the numbers only. -/
theorem unnumbered_numbered : (p.numbered location).unnumbered = p.unnumbered := by
  rw [unnumbered, numbered_eq, map_map]
  rfl

theorem size_slots_numbered : (p.numbered location).slots.size = p.slots.size := by
  rw [numbered_eq, map, Array.size_mapIdx]

/-- A change that leaves the targets leaves the labels. -/
theorem labelled_map {f : InstrId → Instruction → Instruction}
    (hf : ∀ id i, (f id i).targets = i.targets) : (p.map f).labelled = p.labelled := by
  rw [labelled, entries_map, order_map, labelled]
  simp only [List.any_map, Function.comp_def, hf]

theorem label?_numbered : (p.numbered location).label? = p.label? := by
  have hlabelled : (p.numbered location).labelled = p.labelled := by
    rw [numbered_eq]
    exact labelled_map fun _ _ ↦ rfl
  funext id
  rw [label?, hlabelled, label?]

/-- Numbering again from the same location number changes nothing. -/
theorem numbered_numbered : (p.numbered location).numbered location = p.numbered location := by
  rw [numbered_eq (p.numbered location), label?_numbered, numbered_eq, map_map]
  rfl

theorem callees_numbered : (p.numbered location).callees = p.callees := by
  rw [callees, numbered_eq, entries_map, List.filterMap_map, callees]
  rfl

/-! ### The numbers in their order -/

/-- The places in a list without repetitions, in order. -/
theorem map_idxOf_self (h : ids.Nodup) : ids.map ids.idxOf = List.range ids.length := by
  refine List.ext_getElem (by simp) fun k hk _ ↦ ?_
  rw [List.getElem_map, List.getElem_range]
  exact h.idxOf_getElem k (by simpa using hk)

/-- The location numbers go on from where numbering began. -/
theorem map_locationNumber_numbered :
    (p.numbered location).instructions.map (·.locationNumber) =
      (List.range' location p.size).map .ofNat := by
  have hpositions : p.order.map p.position = List.range p.size := map_idxOf_self p.order_nodup
  calc (p.numbered location).instructions.map (·.locationNumber)
      = (p.order.map p.position).map fun k ↦ .ofNat (location + k) := by
        rw [instructions, numbered_eq, entries_map, entries]
        simp only [List.map_map]
        rfl
    _ = (List.range' location p.size).map .ofNat := by
        rw [hpositions, List.range'_eq_map_range, List.map_map]
        rfl

theorem labelled_nodup : p.labelled.Nodup :=
  p.order_nodup.filter _

/-- Some instruction jumps to what is labelled. -/
theorem mem_labelled_iff :
    id ∈ p.labelled ↔ id ∈ p.order ∧ ∃ c i, p.get? c = some i ∧ id ∈ i.targets := by
  simp only [labelled, List.mem_filter, List.any_eq_true, Prod.exists, mem_entries_iff,
    decide_eq_true_eq]

theorem label?_of_mem (h : id ∈ p.labelled) :
    p.label? id = some (.ofNat (1 + p.labelled.idxOf id)) := by
  obtain ⟨k, hk⟩ := Option.isSome_iff_exists.1 (List.isSome_idxOf?.2 h)
  rw [label?, labelAmong?, List.idxOf_eq_getD_idxOf?, hk, Nat.add_comm]
  rfl

theorem label?_isSome_iff : (p.label? id).isSome ↔ id ∈ p.labelled := by
  rw [label?, labelAmong?, Option.isSome_map, List.isSome_idxOf?]

theorem label?_eq_none_of_notMem (h : id ∉ p.order) : p.label? id = none :=
  Option.not_isSome_iff_eq_none.1 fun hsome ↦
    h (mem_labelled_iff.1 (label?_isSome_iff.1 hsome)).1

/-- The labels go on from 1. -/
theorem filterMap_label?_order :
    p.order.filterMap p.label? = (List.range' 1 p.labelled.length).map .ofNat := by
  have hlabelled : p.order.filterMap p.label? = p.labelled.filterMap p.label? := by
    rw [labelled, List.filterMap_filter]
    refine List.filterMap_congr fun id hid ↦ ?_
    split
    case isTrue => rfl
    case isFalse h =>
      refine Option.not_isSome_iff_eq_none.1 fun hlabel ↦ h ?_
      exact (List.mem_filter.1 (label?_isSome_iff.1 hlabel)).2
  have hplaces : p.labelled.filterMap p.label? =
      (p.labelled.map p.labelled.idxOf).map fun k ↦ .ofNat (1 + k) := by
    rw [List.map_map]
    exact List.filterMap_eq_map_iff_forall_eq_some.2 fun id hid ↦ label?_of_mem hid
  rw [hlabelled, hplaces, map_idxOf_self labelled_nodup, List.range'_eq_map_range, List.map_map]
  rfl

/-- The target numbers go on from 1. -/
theorem filterMap_targetNumber_numbered :
    (p.numbered location).instructions.filterMap (·.targetNumber) =
      (List.range' 1 p.labelled.length).map .ofNat := by
  rw [← filterMap_label?_order, instructions, numbered_eq, entries_map, entries, List.map_map,
    List.map_map, List.filterMap_map]
  rfl

/-! ### Numbering linked slots -/

/-- Changing some instructions one after the other, none of them twice, changes all of them. -/
theorem foldl_update {α : Type} {f : α → Instruction → Instruction} {changes : List (InstrId × α)}
    (h : (changes.map Prod.fst).Nodup) : changes.foldl (fun q n ↦ q.update n.1 (f n.2)) p =
      p.map fun id i ↦ match changes.lookup id with
        | none => i
        | some n => f n i := by
  induction changes generalizing p with
  | nil => exact (map_id fun _ _ ↦ rfl).symm
  | cons n changes ih =>
    obtain ⟨x, n⟩ := n
    obtain ⟨hx, hrest⟩ := List.nodup_cons.1 h
    have hnone : changes.lookup x = none := by
      rw [List.lookup_eq_none_iff]
      intro e he
      simpa using (ne_of_mem_of_not_mem (List.mem_map_of_mem he) hx).symm
    rw [List.foldl_cons, ih hrest, update, map_map]
    congr 1
    funext id i
    by_cases hid : id = x
    · rw [if_pos hid, hid, hnone, List.lookup_cons_self]
    · rw [if_neg hid, List.lookup_cons, beq_false_of_ne hid]

end Program

namespace Arena

/-- Gives the instructions their numbers, one after the other on the way from the first slot. -/
def numbered (a : Arena) (location : Nat) : Arena :=
  (Program.numbersFrom (fun id ↦ a.entries.any (id ∈ ·.2.targets)) location 0 a.ids).foldl
    (fun b n ↦ b.alter n.1 fun s ↦ { s with instruction := s.instruction.withNumbers n.2 }) a

namespace Links

variable {a : Arena} {p : Program}

theorem foldl_alter {α : Type} (f : α → Instruction → Instruction) (changes : List (InstrId × α))
    (h : a.Links p) : (changes.foldl (fun b n ↦ b.alter n.1 fun s ↦
      { s with instruction := f n.2 s.instruction }) a).Links
        (changes.foldl (fun q n ↦ q.update n.1 (f n.2)) p) := by
  induction changes generalizing a p with
  | nil => exact h
  | cons n changes ih => exact ih (h.alter n.1 (f n.2))

/-- Numbering the linked slots leaves the links as they are. -/
theorem numbered (h : a.Links p) (location : Nat) :
    (a.numbered location).Links (p.numbered location) := by
  have hids : ((Program.numbersFrom p.isTarget location 0 p.order).map Prod.fst).Nodup := by
    rw [Program.numbersFrom_eq p.order_nodup, List.map_map]
    simpa [Function.comp_def] using p.order_nodup
  have hmap : (Program.numbersFrom p.isTarget location 0 p.order).foldl
      (fun q n ↦ q.update n.1 (.withNumbers n.2)) p = p.numbered location := by
    rw [Program.foldl_update hids, Program.numbered]
    congr 1
    funext id i
    cases (Program.numbersFrom p.isTarget location 0 p.order).lookup id <;> rfl
  rw [Arena.numbered, h.ids, h.entries, ← hmap]
  exact h.foldl_alter Instruction.withNumbers _

end Links

end Arena

end LoopInduction
