import LoopInduction.Program.Jumps
import LoopInduction.Proofs.Program.Insertion

/-!
# Redirecting jumps

Redirecting a jump changes nothing but its targets, and as a set these are the old ones with one
target replaced by another (`Instruction.mem_targets_redirect`). Redirecting the jumps of a program
keeps its order and changes the selected instructions only (`Program.get?_redirectTargets`).

## Main definitions

* `Program.TargetsLive` : every target of every instruction is an instruction of the program.
-/

namespace LoopInduction

namespace Instruction

variable {i : Instruction} {old new t : InstrId}

theorem isSkip_of_isConditionalJump (h : i.isConditionalJump = true) : i.isSkip = false := by
  rw [isConditionalJump, Bool.and_eq_true, isGoto, beq_iff_eq] at h
  rw [isSkip, h.1]
  rfl

/-- Only the targets change. -/
theorem redirect_eq_with :
    i.redirect old new = { i with targets := (i.redirect old new).targets } := by
  unfold redirect; split <;> rfl

theorem redirect_of_notMem (h : old ∉ i.targets) : i.redirect old new = i :=
  if_neg h

theorem mem_targets_redirect :
    t ∈ (i.redirect old new).targets ↔ ∃ u ∈ i.targets, (if u = old then new else u) = t := by
  unfold redirect
  split
  · rw [List.mem_eraseDups, List.mem_map]
  · next h =>
    constructor
    · intro ht
      exact ⟨t, ht, if_neg fun e : t = old ↦ h (e ▸ ht)⟩
    · rintro ⟨u, hu, rfl⟩
      rwa [if_neg fun e : u = old ↦ h (e ▸ hu)]

/-- A target that was not the new one was there before, and was not the old one. -/
theorem mem_targets_of_redirect (h : t ∈ (i.redirect old new).targets) (hne : t ≠ new) :
    t ∈ i.targets ∧ t ≠ old := by
  obtain ⟨u, hu, rfl⟩ := mem_targets_redirect.1 h
  split at hne
  · exact absurd rfl hne
  · next hu' =>
    rw [if_neg hu']
    exact ⟨hu, hu'⟩

/-- Whether some target lies outside a set is not changed by a redirection from outside to
outside. -/
theorem exists_mem_targets_redirect_iff {P : InstrId → Prop} (hold : P old) (hnew : P new) :
    (∃ t ∈ (i.redirect old new).targets, P t) ↔ ∃ t ∈ i.targets, P t := by
  constructor
  · rintro ⟨t, ht, hP⟩
    obtain ⟨u, hu, rfl⟩ := mem_targets_redirect.1 ht
    by_cases he : u = old
    · exact ⟨u, hu, he ▸ hold⟩
    · rw [if_neg he] at hP
      exact ⟨u, hu, hP⟩
  · rintro ⟨t, ht, hP⟩
    refine ⟨if t = old then new else t, mem_targets_redirect.2 ⟨t, ht, rfl⟩, ?_⟩
    split
    · exact hnew
    · exact hP

end Instruction

namespace Program

variable {p : Program} {old new t id : InstrId} {accept : InstrId → Bool}

/-- Every target of every instruction is an instruction of the program. -/
def TargetsLive (p : Program) : Prop :=
  ∀ id i, p.get? id = some i → ∀ t ∈ i.targets, t ∈ p.order

theorem mem_jumpSources :
    id ∈ p.jumpSources t ↔ ∃ i, p.get? id = some i ∧ t ∈ i.targets := by
  simp [jumpSources, mem_entries_iff]

theorem mem_jumpSources_iff : id ∈ p.jumpSources t ↔ t ∈ (p.fetch id).targets := by
  rw [mem_jumpSources]
  constructor
  · rintro ⟨i, hi, ht⟩
    rwa [fetch_eq hi]
  · intro ht
    exact ⟨_, get?_eq_some_fetch (mem_of_mem_targets ht), ht⟩

theorem jumpSources_nodup : (p.jumpSources t).Nodup := by
  refine (List.filter_sublist.map Prod.fst).nodup ?_
  rw [map_fst_entries]
  exact p.order_nodup

/-- One instruction alone has the target. -/
theorem jumpSources_eq_singleton_iff :
    p.jumpSources t = [id] ↔ ∀ c, c ∈ p.jumpSources t ↔ c = id := by
  constructor
  · intro h c
    rw [h, List.mem_singleton]
  · intro h
    have hperm : (p.jumpSources t).Perm [id] :=
      (List.perm_ext_iff_of_nodup jumpSources_nodup (List.nodup_singleton id)).2 fun c ↦ by
        rw [h, List.mem_singleton]
    exact List.perm_singleton.1 hperm

@[simp] theorem order_redirectTargets :
    (p.redirectTargets old new accept).1.order = p.order := rfl

/-- The jumps of the accepted instructions are redirected, all others stay. -/
theorem get?_redirectTargets : (p.redirectTargets old new accept).1.get? id =
    (p.get? id).map fun i ↦ if accept id then i.redirect old new else i := by
  rw [redirectTargets, get?_map]
  cases h : p.get? id with
  | none => rfl
  | some i =>
    by_cases ht : old ∈ i.targets
    · have hsource : id ∈ p.jumpSources old := mem_jumpSources.2 ⟨i, h, ht⟩
      simp [List.mem_filter, hsource]
    · simp [Instruction.redirect_of_notMem ht]

theorem targetsLive_iff : p.TargetsLive ↔ p.validateTargets = .ok () := by
  have hnone : p.entries.findSome? (fun e ↦ p.danglingJump? e.1 e.2) = none ↔ p.TargetsLive := by
    rw [List.findSome?_eq_none_iff]
    simp only [Prod.forall, mem_entries_iff, danglingJump?, Option.map_eq_none_iff,
      List.find?_eq_none]
    refine forall_congr' fun id ↦ forall_congr' fun i ↦ imp_congr_right fun _ ↦
      forall_congr' fun t ↦ imp_congr_right fun _ ↦ ?_
    rw [Bool.not_eq_true', Bool.not_eq_false, contains_iff]
  rw [validateTargets, ← hnone]
  cases p.entries.findSome? (fun e ↦ p.danglingJump? e.1 e.2) <;> simp

instance : Decidable p.TargetsLive :=
  decidable_of_iff _ targetsLive_iff.symm

end Program

end LoopInduction
