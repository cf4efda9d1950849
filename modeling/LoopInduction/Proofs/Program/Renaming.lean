import LoopInduction.Functions.Refresh
import LoopInduction.Proofs.Program.Growth
import LoopInduction.Proofs.Program.Listing

/-!
# Renaming the ids of a program

A program *renames* another one if it has the same instructions in the same order, with other ids
and with targets to match. Different ids get different names, since no id is listed twice. What the
numbers of the instructions are does not depend on the ids (`Program.Renames.numbered`).

## Main definitions

* `Instruction.rename`, `Listing.rename` : other ids in the targets, and in all entries.
* `Program.Renames` : a program is another one with other ids.

## Main results

* `Instruction.redirect_eq_rename` : redirecting to a new id as a renaming.
* `Program.Renames.numbered` : numbers do not depend on the ids.
-/

namespace LoopInduction

/-- Looking up in a list whose keys were renamed. -/
theorem lookup_map {α β : Type} [BEq α] [LawfulBEq α] {f : α → α} {a : α} (l : List (α × β))
    (h : ∀ e ∈ l, f e.1 = f a → e.1 = a) :
    (l.map fun e ↦ (f e.1, e.2)).lookup (f a) = l.lookup a := by
  induction l with
  | nil => rfl
  | cons e l ih =>
    have hiff : (f a == f e.1) = (a == e.1) := by
      rw [Bool.eq_iff_iff, beq_iff_eq, beq_iff_eq]
      exact ⟨fun heq ↦ (h e List.mem_cons_self heq.symm).symm, fun heq ↦ heq ▸ rfl⟩
    rw [List.map_cons, List.lookup_cons, List.lookup_cons, hiff,
      ih fun e' he' ↦ h e' (List.mem_cons_of_mem _ he')]

/-! ### Renaming -/

/-- Where a jump to `t` goes once those to `old` go to `new`. -/
def InstrId.redirect (old new t : InstrId) : InstrId :=
  if t = old then new else t

theorem InstrId.redirect_of_ne {old new t : InstrId} (h : t ≠ old) : redirect old new t = t :=
  if_neg h

theorem InstrId.redirect_self (old new : InstrId) : redirect old new old = new :=
  if_pos rfl

theorem InstrId.redirect_cases (old new t : InstrId) :
    redirect old new t = t ∨ redirect old new t = new := by
  rw [redirect]
  split
  · exact .inr rfl
  · exact .inl rfl

/-- A redirection to a new id takes different ids to different ones. -/
theorem InstrId.redirect_inj {old new t u : InstrId} (ht : t ≠ new) (hu : u ≠ new)
    (h : redirect old new t = redirect old new u) : t = u := by
  rw [redirect, redirect] at h
  split at h <;> split at h
  · next ht hu => rw [ht, hu]
  · exact absurd h.symm hu
  · exact absurd h ht
  · exact h

namespace Instruction

variable {i : Instruction} {μ ν : InstrId → InstrId} {old new : InstrId}

/-- The instruction with other ids in its targets. -/
def rename (μ : InstrId → InstrId) (i : Instruction) : Instruction :=
  { i with targets := i.targets.map μ }

@[simp] theorem targets_rename : (i.rename μ).targets = i.targets.map μ := rfl

@[simp] theorem rename_rename : (i.rename μ).rename ν = i.rename (ν ∘ μ) := by
  rw [rename, rename, rename, List.map_map]

theorem rename_congr (h : ∀ t ∈ i.targets, μ t = ν t) : i.rename μ = i.rename ν := by
  rw [rename, rename, List.map_congr_left h]

theorem rename_eq_self (h : ∀ t ∈ i.targets, μ t = t) : i.rename μ = i := by
  rw [rename, List.map_congr_left (g := id) h, List.map_id]

/-- An instruction that goes nowhere is not changed by a renaming. -/
theorem rename_of_targets_eq_nil (h : i.targets = []) : i.rename μ = i :=
  rename_eq_self fun t ht ↦ by simp [h] at ht

/-- Redirecting to a new id is a renaming. -/
theorem redirect_eq_rename (hnodup : i.targets.Nodup) (hnew : new ∉ i.targets) :
    i.redirect old new = i.rename (InstrId.redirect old new) := by
  have hinj : (i.targets.map (InstrId.redirect old new)).Nodup :=
    hnodup.map_on fun t ht u hu e ↦ InstrId.redirect_inj (fun e : t = new ↦ hnew (e ▸ ht))
      (fun e : u = new ↦ hnew (e ▸ hu)) e
  by_cases h : old ∈ i.targets
  · rw [redirect, if_pos h, rename]
    congr 1
    exact eraseDups_eq_self hinj
  · rw [redirect_of_notMem h]
    exact (rename_eq_self fun t ht ↦
      InstrId.redirect_of_ne fun e : t = old ↦ h (e ▸ ht)).symm

end Instruction

namespace Listing

variable {l : Listing} {μ ν : InstrId → InstrId}

/-- The listing with other ids. -/
def rename (μ : InstrId → InstrId) (l : Listing) : Listing :=
  l.map fun e ↦ (μ e.1, e.2.rename μ)

@[simp] theorem rename_nil : rename μ [] = [] := rfl

@[simp] theorem rename_append (l l' : Listing) :
    rename μ (l ++ l') = l.rename μ ++ rename μ l' :=
  List.map_append

theorem rename_cons (e : InstrId × Instruction) (l : Listing) :
    rename μ (e :: l) = (μ e.1, e.2.rename μ) :: l.rename μ :=
  List.map_cons

theorem rename_ite (c : Prop) [Decidable c] (l l' : Listing) :
    rename μ (if c then l else l') = if c then l.rename μ else l'.rename μ :=
  apply_ite _ _ _ _

theorem rename_flatMap (l : Listing) (f : InstrId × Instruction → Listing) :
    rename μ (l.flatMap f) = l.flatMap fun e ↦ rename μ (f e) :=
  List.map_flatMap

theorem flatMap_rename (l : Listing) (f : InstrId × Instruction → Listing) :
    (l.rename μ).flatMap f = l.flatMap fun e ↦ f (μ e.1, e.2.rename μ) := by
  rw [rename, List.flatMap_map]

@[simp] theorem ids_rename : ids (l.rename μ) = (ids l).map μ := by
  rw [ids, ids, rename, List.map_map, List.map_map]
  rfl

@[simp] theorem rename_rename : (l.rename μ).rename ν = l.rename (ν ∘ μ) := by
  rw [rename, rename, rename, List.map_map]
  refine List.map_congr_left fun e _ ↦ ?_
  rw [Function.comp_apply, Instruction.rename_rename]
  rfl

@[simp] theorem rename_id : l.rename id = l := by
  refine (List.map_congr_left fun e _ ↦ ?_).trans l.map_id
  exact Prod.ext rfl (Instruction.rename_eq_self fun _ _ ↦ rfl)

/-- The ids of the entries and their targets are all that a renaming depends on. -/
theorem rename_congr (hids : ∀ id ∈ ids l, μ id = ν id)
    (htargets : ∀ e ∈ l, ∀ t ∈ e.2.targets, t ∈ ids l) : l.rename μ = l.rename ν := by
  refine List.map_congr_left fun e he ↦ ?_
  rw [hids e.1 (List.mem_map_of_mem he),
    Instruction.rename_congr fun t ht ↦ hids t (htargets e he t ht)]

end Listing

namespace Program

variable {p q : Program} {π : InstrId → InstrId} {id : InstrId}

/-- The program is another one with other ids. -/
def Renames (π : InstrId → InstrId) (p q : Program) : Prop :=
  q.entries = Listing.rename π p.entries

theorem ids_entries (p : Program) : Listing.ids p.entries = p.order :=
  map_fst_entries

namespace Renames

variable (h : Renames π p q)

include h

theorem order : q.order = p.order.map π := by
  rw [← ids_entries q, h, Listing.ids_rename, ids_entries]

theorem size_eq : q.size = p.size := by
  rw [size, h.order, List.length_map, size]

theorem inj {a b : InstrId} (ha : a ∈ p.order) (hb : b ∈ p.order) (hab : π a = π b) : a = b :=
  List.inj_on_of_nodup_map (h.order ▸ q.order_nodup) ha hb hab

theorem isTarget_eq (hlive : p.TargetsLive) (hid : id ∈ p.order) :
    q.isTarget (π id) = p.isTarget id := by
  rw [Bool.eq_iff_iff, isTarget, isTarget, h, Listing.rename, List.any_map]
  simp only [List.any_eq_true, Function.comp_apply, decide_eq_true_eq, Instruction.targets_rename,
    List.mem_map]
  refine exists_congr fun e ↦ and_congr_right fun he ↦ ⟨?_, fun hmem ↦ ⟨id, hmem, rfl⟩⟩
  rintro ⟨t, ht, hid'⟩
  rwa [← h.inj (hlive e.1 e.2 (mem_entries_iff.1 he) t ht) hid hid']

/-- Numbers are given out in the same order. -/
theorem numbersFrom_eq (hlive : p.TargetsLive) (location labels : Nat) {ids : List InstrId}
    (hids : ids ⊆ p.order) : numbersFrom q.isTarget location labels (ids.map π) =
      (numbersFrom p.isTarget location labels ids).map fun n ↦ (π n.1, n.2) := by
  induction ids generalizing location labels with
  | nil => rfl
  | cons a ids ih =>
    obtain ⟨ha, hids⟩ := List.cons_subset.1 hids
    rw [List.map_cons, numbersFrom, numbersFrom, h.isTarget_eq hlive ha]
    split
    · rw [ih _ _ hids, List.map_cons]
    · rw [ih _ _ hids, List.map_cons]

omit h in
theorem fst_mem_of_mem_numbersFrom {isTarget : InstrId → Bool} {location labels : Nat}
    {ids : List InstrId} {n : InstrId × UInt32 × Option UInt32}
    (hn : n ∈ numbersFrom isTarget location labels ids) : n.1 ∈ ids := by
  induction ids generalizing location labels with
  | nil => cases hn
  | cons a ids ih =>
    rw [numbersFrom] at hn
    split at hn
    all_goals
      rcases List.mem_cons.1 hn with rfl | hn
      · exact List.mem_cons_self
      · exact List.mem_cons_of_mem _ (ih hn)

/-- Numbers do not depend on the ids. -/
theorem numbered (hlive : p.TargetsLive) (location : Nat) :
    Renames π (p.numbered location) (q.numbered location) := by
  rw [Renames, Program.numbered, Program.numbered, entries_map, entries_map, h.order,
    h.numbersFrom_eq hlive location 0 (List.Subset.refl _), h, Listing.rename, Listing.rename,
    List.map_map, List.map_map]
  refine List.map_congr_left fun e he ↦ ?_
  have hlookup : ((numbersFrom p.isTarget location 0 p.order).map fun n ↦ (π n.1, n.2)).lookup
      (π e.1) = (numbersFrom p.isTarget location 0 p.order).lookup e.1 :=
    lookup_map _ fun n hn hne ↦ h.inj (fst_mem_of_mem_numbersFrom hn)
      (mem_of_get? (mem_entries_iff.1 he)) hne
  simp only [Function.comp_apply, hlookup]
  cases (numbersFrom p.isTarget location 0 p.order).lookup e.1 <;> rfl

end Renames

end Program

theorem Program.Renames.refl (p : Program) : Renames id p p :=
  Listing.rename_id.symm

end LoopInduction
