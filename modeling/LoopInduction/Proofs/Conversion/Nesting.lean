import LoopInduction.Proofs.Conversion.Function

/-!
# Loops that are apart

Two loops are *apart* if they have no instruction in common or one lies strictly inside the other,
exits included. Where the loops of a function are pairwise apart and the longest come first, a loop
that comes later is disjoint from every loop before it or lies strictly inside of it
(`Program.Nest.pairwise_later`): what a conversion writes into a loop never lies inside one that is
still to come.

## Main definitions

* `Program.Nest` : loops that are pairwise apart.
* `Program.Later` : how a loop that comes later lies to one that came before it.
-/

namespace LoopInduction

namespace Program

variable {p q : Program} {l m : Loop} {loops : List Loop}

/-- The loop is there, its exit at or behind its head. -/
structure IsLoop (p : Program) (l : Loop) : Prop where
  head_mem : l.head ∈ p.order
  exit_mem : l.exit ∈ p.order
  le : p.position l.head ≤ p.position l.exit

/-- All of `l` comes before `m`. -/
def Before (p : Program) (l m : Loop) : Prop :=
  p.position l.exit < p.position m.head

/-- All of `m` lies in the body of `l`. -/
def Within (p : Program) (m l : Loop) : Prop :=
  p.position l.head ≤ p.position m.head ∧ p.position m.exit < p.position l.exit

/-- The loops are disjoint, or one lies strictly inside the other. -/
def Apart (p : Program) (l m : Loop) : Prop :=
  p.Before l m ∨ p.Before m l ∨ p.Within m l ∨ p.Within l m

/-- The loops are disjoint, or `m` lies strictly inside `l`. -/
def Later (p : Program) (l m : Loop) : Prop :=
  p.Before l m ∨ p.Before m l ∨ p.Within m l

/-- Loops that are pairwise apart. -/
structure Nest (p : Program) (loops : List Loop) : Prop where
  isLoop : ∀ l ∈ loops, p.IsLoop l
  apart : loops.Pairwise p.Apart

instance : Decidable (p.IsLoop l) :=
  decidable_of_iff (l.head ∈ p.order ∧ l.exit ∈ p.order ∧ p.position l.head ≤ p.position l.exit)
    ⟨fun ⟨hh, he, hle⟩ ↦ ⟨hh, he, hle⟩, fun h ↦ ⟨h.head_mem, h.exit_mem, h.le⟩⟩

instance : Decidable (p.Before l m) :=
  inferInstanceAs (Decidable (_ < _))

instance : Decidable (p.Within m l) :=
  inferInstanceAs (Decidable (_ ∧ _))

instance : DecidableRel p.Apart := fun l m ↦
  inferInstanceAs (Decidable (p.Before l m ∨ p.Before m l ∨ p.Within m l ∨ p.Within l m))

instance : Decidable (p.Nest loops) :=
  decidable_of_iff ((∀ l ∈ loops, p.IsLoop l) ∧ loops.Pairwise p.Apart)
    ⟨fun ⟨hl, ha⟩ ↦ ⟨hl, ha⟩, fun h ↦ ⟨h.isLoop, h.apart⟩⟩

theorem exists_range_iff_isLoop : (∃ body, p.range l.head l.exit = .ok body) ↔ p.IsLoop l := by
  rw [exists_range_iff]
  exact ⟨fun ⟨hh, he, hle⟩ ↦ ⟨hh, he, hle⟩, fun h ↦ ⟨h.head_mem, h.exit_mem, h.le⟩⟩

theorem Apart.symm (h : p.Apart l m) : p.Apart m l := by
  rcases h with h | h | h | h
  · exact .inr (.inl h)
  · exact .inl h
  · exact .inr (.inr (.inr h))
  · exact .inr (.inr (.inl h))

/-- Of two loops that are apart the shorter one is the later one. -/
theorem Apart.later (h : p.Apart l m) (hl : p.IsLoop l) (hspan : p.span m ≤ p.span l) :
    p.Later l m := by
  rcases h with h | h | h | ⟨hhead, hexit⟩
  · exact .inl h
  · exact .inr (.inl h)
  · exact .inr (.inr h)
  · have := hl.le
    rw [span, span] at hspan
    omega

theorem Nest.pairwise_later (h : p.Nest loops) : (p.turns loops).Pairwise p.Later := by
  have hapart : (p.turns loops).Pairwise p.Apart :=
    ((p.turns_perm loops).pairwise_iff Apart.symm).2 h.apart
  refine (hapart.and (p.pairwise_turns loops)).imp_of_mem fun {l m} hl _ hlm ↦ ?_
  exact hlm.1.later (h.isLoop l ((p.turns_perm loops).subset hl)) hlm.2

/-! ### In programs that keep the loops -/

theorem IsLoop.of_sublist (hl : p.IsLoop l) (h : p.order.Sublist q.order) : q.IsLoop l where
  head_mem := h.subset hl.head_mem
  exit_mem := h.subset hl.exit_mem
  le := (position_le_iff_of_sublist h hl.head_mem hl.exit_mem).2 hl.le

theorem IsLoop.of_extends (h : p.Extends q) (hl : p.IsLoop l) : q.IsLoop l :=
  hl.of_sublist h.sublist

theorem Later.of_extends (h : p.Extends q) (hl : p.IsLoop l) (hm : p.IsLoop m)
    (hlm : p.Later l m) : q.Later l m := by
  rcases hlm with hlm | hlm | ⟨hhead, hexit⟩
  · exact .inl ((h.position_lt_iff hl.exit_mem hm.head_mem).2 hlm)
  · exact .inr (.inl ((h.position_lt_iff hm.exit_mem hl.head_mem).2 hlm))
  · exact .inr (.inr ⟨(h.position_le_iff hl.head_mem hm.head_mem).2 hhead,
      (h.position_lt_iff hm.exit_mem hl.exit_mem).2 hexit⟩)

/-- A later loop lies in the body of the loop, or has no instruction in common with it. -/
theorem Later.subset_or_disjoint {body ids : List InstrId} (h : p.Later l m)
    (hbody : p.range l.head l.exit = .ok body) (hids : p.range m.head m.exit = .ok ids) :
    (∀ u ∈ ids ++ [m.exit], u ∈ body) ∨ ∀ u ∈ ids ++ [m.exit], u ∉ body ++ [l.exit] := by
  simp only [mem_range_append_iff hids, mem_range_append_iff hbody, mem_range_iff hbody]
  rcases h with h | h | ⟨h, h'⟩
  · rw [Before] at h
    exact .inr fun u ⟨_, hhead, _⟩ ⟨_, _, hexit⟩ ↦ by omega
  · rw [Before] at h
    exact .inr fun u ⟨_, _, hexit⟩ ⟨_, hhead, _⟩ ↦ by omega
  · exact .inl fun u ⟨hu, hhead, hexit⟩ ↦ ⟨hu, by omega, by omega⟩

/-- The exit of a loop is not among the instructions of a later one. -/
theorem Later.exit_notMem {body : List InstrId} (h : p.Later l m)
    (hl : p.IsLoop l) (hbody : p.range m.head m.exit = .ok body) : l.exit ∉ body ++ [m.exit] := by
  intro hmem
  obtain ⟨ids, hids⟩ := exists_range_iff_isLoop.2 hl
  rcases h.subset_or_disjoint hids hbody with hin | hdisjoint
  · exact notMem_of_range hids (hin _ hmem)
  · exact hdisjoint _ hmem (by simp)

/-- A later loop neither begins nor ends at the exit of the loop. -/
theorem Later.ne_exit (h : p.Later l m) (hl : p.IsLoop l) (hm : p.IsLoop m) :
    m.head ≠ l.exit ∧ m.exit ≠ l.exit := by
  obtain ⟨body, hbody⟩ := exists_range_iff_isLoop.2 hm
  have hexit := h.exit_notMem hl hbody
  refine ⟨fun e ↦ hexit ?_, fun e ↦ hexit ?_⟩
  · exact e ▸ List.mem_of_mem_head? (head?_of_range_append hbody)
  · exact e ▸ List.mem_append_right _ (List.mem_singleton_self _)

/-- The head of a loop comes first in a later one, if it is there at all. -/
theorem Later.head_notMem_tail {body : List InstrId} (h : p.Later l m) (hl : p.IsLoop l)
    (hbody : p.range m.head m.exit = .ok body) : l.head ∉ (body ++ [m.exit]).tail := by
  intro hmem
  have hle := hl.le
  have hhead := position_lt_of_mem_tail hbody hmem
  have hexit := ((mem_range_append_iff hbody).1 (List.mem_of_mem_tail hmem)).2.2
  rw [Later, Before, Before, Within] at h
  omega

end Program

end LoopInduction
