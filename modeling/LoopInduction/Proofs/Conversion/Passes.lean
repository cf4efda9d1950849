import LoopInduction.Proofs.Loop.Scaffold

/-!
# What every pass keeps

The passes of a conversion are `Scaffolded`, `Unwound`, `Forwarded` and `Assumed`. Each of them
extends the program that it starts from, has live targets only if that program has, and does not
change which instruction is the last one.

## Main definitions

* `Assumed` : the assertions of a loop became assumptions.
-/

namespace LoopInduction

variable {p q : Program} {s : Setup} {l : Loop} {condition : LoopCondition} {guard : Expr}
  {body ids : List InstrId} {target id t : InstrId} {i : Instruction}

/-! ### Scaffolding -/

namespace Scaffolded

/-- The new instructions are those of the block. -/
theorem map_fetch_freshIds (h : Scaffolded s l guard body p q) :
    (p.freshIds (l.vars.length + 1)).map q.fetch = scaffoldBlock s l (p.fetch l.head) guard := by
  refine List.ext_getElem? fun j ↦ ?_
  rw [Program.freshIds, List.map_map, List.getElem?_map]
  by_cases hj : j < l.vars.length + 1
  · have hget := h.get?_new j
    rw [List.getElem?_eq_getElem (by simpa using hj)] at hget
    rw [List.getElem?_range hj, List.getElem?_eq_getElem (by simpa using hj), Option.map_some,
      Function.comp_apply, Program.fetch_eq hget]
  · rw [List.getElem?_eq_none (by simpa using hj), List.getElem?_eq_none (by simpa using hj)]
    rfl

theorem fetch_mem_scaffoldBlock (h : Scaffolded s l guard body p q)
    (hid : id ∈ p.freshIds (l.vars.length + 1)) :
    q.fetch id ∈ scaffoldBlock s l (p.fetch l.head) guard :=
  h.map_fetch_freshIds ▸ List.mem_map_of_mem hid

theorem targets_eq_nil (h : Scaffolded s l guard body p q)
    (hid : id ∈ p.freshIds (l.vars.length + 1)) : (q.fetch id).targets = [] :=
  targets_of_mem_scaffoldBlock (h.fetch_mem_scaffoldBlock hid)

theorem retained_entered (head exit start : InstrId) (body : List InstrId) (id : InstrId) :
    (p.fetch id).Retained (p.entered head exit start body id) := by
  rw [Program.entered]
  split
  · exact .with_targets _ _
  · split
    · exact .refl _
    · exact .redirect _ _ _

theorem extension (h : Scaffolded s l guard body p q) : p.Extends q where
  sublist := h.splice.sublist
  retained id hid := by
    rw [Program.fetch_eq (h.get?_old id hid)]
    exact retained_entered _ _ _ _ _
  added id hid hp := by
    have hnew := (h.splice.mem_iff.1 hid).resolve_left hp
    rw [(mem_scaffoldBlock (h.fetch_mem_scaffoldBlock hnew)).1]
    decide

/-- The targets of the instructions that were there: the old ones, the head and the start of the
block. -/
theorem mem_targets_entered {head exit start : InstrId}
    (ht : t ∈ (p.entered head exit start body id).targets) :
    t ∈ (p.fetch id).targets ∨ t = head ∨ t = start := by
  rw [Program.entered] at ht
  split at ht
  · exact .inr (.inl (List.mem_singleton.1 ht))
  · split at ht
    · exact .inl ht
    · by_cases hne : t = start
      · exact .inr (.inr hne)
      · exact .inl (Instruction.mem_targets_of_redirect ht hne).1

/-- A jump that still goes to the head comes from the body or the exit. -/
theorem mem_of_head_mem_targets_entered {head exit start : InstrId} (hne : head ≠ start)
    (ht : head ∈ (p.entered head exit start body id).targets) : id ∈ body ++ [exit] := by
  rw [Program.entered] at ht
  split at ht
  · next he => exact List.mem_append_right _ (List.mem_singleton.2 he)
  · split at ht
    · next hmem => exact List.mem_append_left _ hmem
    · exact absurd rfl (Instruction.mem_targets_of_redirect ht hne).2

/-- A jump to something new goes to the start of the block, and neither the body nor the exit has
one. -/
theorem of_mem_targets_entered {head exit start : InstrId} (hhead : t ≠ head)
    (hold : t ∉ (p.fetch id).targets)
    (ht : t ∈ (p.entered head exit start body id).targets) : t = start ∧ id ∉ body ++ [exit] := by
  rw [Program.entered] at ht
  split at ht
  · exact absurd (List.mem_singleton.1 ht) hhead
  · next he =>
    split at ht
    · exact absurd ht hold
    · next hmem =>
      refine ⟨?_, by simp [he, hmem]⟩
      by_contra hne
      exact hold (Instruction.mem_targets_of_redirect ht hne).1

/-- What is put in has no targets, so all targets are those of instructions that were there. -/
theorem mem_targets (h : Scaffolded s l guard body p q) (hid : id ∈ q.order)
    (ht : t ∈ (q.fetch id).targets) :
    id ∈ p.order ∧ t ∈ (p.entered l.head l.exit p.fresh body id).targets := by
  rcases h.splice.mem_iff.1 hid with hid | hid
  · rw [Program.fetch_eq (h.get?_old id hid)] at ht
    exact ⟨hid, ht⟩
  · rw [h.targets_eq_nil hid] at ht
    cases ht

theorem targetsLive (h : Scaffolded s l guard body p q) (hhead : l.head ∈ p.order)
    (hlive : p.TargetsLive) : q.TargetsLive := by
  intro id i hi t ht
  rw [← Program.fetch_eq hi] at ht
  obtain ⟨hid, ht⟩ := h.mem_targets (Program.mem_of_get? hi) ht
  rcases mem_targets_entered ht with ht | rfl | rfl
  · exact h.splice.mem_old (hlive id _ (Program.get?_eq_some_fetch hid) t ht)
  · exact h.splice.mem_old hhead
  · exact h.splice.mem_new (List.mem_of_mem_head? (Program.head?_freshIds _))

theorem last?_eq (h : Scaffolded s l guard body p q) (hhead : l.head ∈ p.order) :
    q.last? = p.last? :=
  h.splice.last?_eq (Program.position_lt_iff.2 hhead)

/-- The body of the loop stays one range. -/
theorem range (h : Scaffolded s l guard body p q) (hrange : p.range l.head l.exit = .ok ids) :
    q.range l.head l.exit = .ok ids :=
  h.splice.range hrange fun y hy hpos ↦ by
    have := Program.position_lt_of_mem_tail hrange hy
    omega

theorem fetch_of_mem_body (h : Scaffolded s l guard body p q) (hid : id ∈ body)
    (hmem : id ∈ p.order) (hne : id ≠ l.exit) : q.fetch id = p.fetch id := by
  rw [Program.fetch_eq (h.get?_old id hmem), Program.entered, if_neg hne, if_pos hid]

end Scaffolded

/-! ### Unwinding -/

namespace Unwound

variable {exit behind marker : InstrId} {builder : GuardBuilder} {copy : InstrId → InstrId}
  {jump : Option InstrId}

theorem mem_iff (h : Unwound p q body exit behind builder copy jump marker) :
    id ∈ q.order ↔ id ∈ p.order ∨ (id ∈ jump ∨ id = marker) ∨ ∃ u ∈ p.kept body, copy u = id := by
  obtain ⟨r, hpr, hrq⟩ := h.splice
  rw [hrq.mem_iff, hpr.mem_iff, List.mem_append, List.mem_singleton, Option.mem_toList,
    List.mem_map, or_assoc]
  exact Iff.rfl

/-- A jump of a copy goes to a copy or to the exit, or to where it went before. -/
theorem copyTarget_cases (p : Program) (body : List InstrId) (exit : InstrId)
    (copy : InstrId → InstrId) (t : InstrId) :
    (t ∉ p.copied body ∧ p.copyTarget (p.copied body) exit copy t = t) ∨
      (t ∈ p.copied body ∧ (p.copyTarget (p.copied body) exit copy t = exit ∨
        ∃ u ∈ p.kept body, p.copyTarget (p.copied body) exit copy t = copy u)) := by
  by_cases ht : t ∈ p.copied body
  · refine .inr ⟨ht, ?_⟩
    rw [Program.copyTarget, if_pos ht]
    cases hu : ((p.copied body).dropWhile (· ≠ t)).find? fun id ↦ !(p.fetch id).isSkip with
    | none => exact .inl rfl
    | some u =>
      refine .inr ⟨u, Program.mem_kept.2 ⟨?_, ?_⟩, rfl⟩
      · exact (List.dropWhile_sublist _).subset (List.mem_of_find?_eq_some hu)
      · simpa using List.find?_some hu
  · exact .inl ⟨ht, Program.copyTarget_of_notMem ht⟩

theorem fetch_old (h : Unwound p q body exit behind builder copy jump marker)
    (hid : id ∈ p.order) : q.fetch id = p.fetch id := by
  rw [Program.fetch, h.get?_old id hid, Program.fetch]

theorem extension (h : Unwound p q body exit behind builder copy jump marker) : p.Extends q where
  sublist := by
    obtain ⟨r, hpr, hrq⟩ := h.splice
    exact hpr.sublist.trans hrq.sublist
  retained id hid := by
    rw [h.fetch_old hid]
    exact .refl _
  added id hid hp := by
    rcases (h.mem_iff.1 hid).resolve_left hp with (hjump | rfl) | ⟨u, hu, rfl⟩
    · rw [Program.fetch_eq (h.get?_guard id hjump)]
      exact Origin.noConfusion
    · rw [Program.fetch_eq h.get?_marker]
      exact Origin.noConfusion
    · obtain ⟨ts, hget, -⟩ := h.get?_copy u hu
      rw [Program.fetch_eq hget]
      exact Origin.noConfusion

theorem targetsLive (h : Unwound p q body exit behind builder copy jump marker)
    (hbody : ∀ u ∈ body, u ∈ p.order) (hlive : p.TargetsLive) : q.TargetsLive := by
  intro id i hi t ht
  rcases h.mem_iff.1 (Program.mem_of_get? hi) with hid | (hjump | rfl) | ⟨u, hu, rfl⟩
  · rw [h.get?_old id hid] at hi
    exact h.extension.mem (hlive id i hi t ht)
  · cases (h.get?_guard id hjump).symm.trans hi
    cases List.mem_singleton.1 ht
    exact h.extension.mem (Program.mem_of_next? h.next)
  · cases h.get?_marker.symm.trans hi
    cases ht
  · obtain ⟨ts, hget, hts⟩ := h.get?_copy u hu
    cases hget.symm.trans hi
    obtain ⟨v, hv, rfl⟩ := (hts t).1 ht
    have hu' := hbody u (Program.mem_copied.1 (Program.mem_kept.1 hu).1).1
    rcases copyTarget_cases p body exit copy v with ⟨-, hvt⟩ | ⟨-, hvt | ⟨w, hw, hvt⟩⟩
    · rw [hvt]
      exact h.extension.mem (hlive u _ (Program.get?_eq_some_fetch hu') v hv)
    · rw [hvt]
      exact h.extension.mem h.exit_mem
    · rw [hvt]
      exact h.mem_iff.2 (.inr (.inr ⟨w, hw, rfl⟩))

theorem last?_eq (h : Unwound p q body exit behind builder copy jump marker) :
    q.last? = p.last? := by
  obtain ⟨r, hpr, hrq⟩ := h.splice
  obtain ⟨hexit, hbehind, hpos⟩ := Program.next?_eq_some_iff.1 h.next
  have hlt := Program.position_lt_iff.2 hbehind
  have hlen := hpr.length
  rw [hrq.last?_eq (by omega), hpr.last?_eq (by omega)]

/-- The exit of an unwound loop does not end the program. -/
theorem next?_exit_ne_none (h : Unwound p q body exit behind builder copy jump marker) :
    q.next? exit ≠ none := by
  rw [h.next?_exit]
  cases jump <;> exact Option.some_ne_none _

end Unwound

/-! ### The assumption behind a loop -/

namespace Forwarded

theorem extension (h : Forwarded s l condition target p q) : p.Extends q where
  sublist := h.splice.sublist
  retained id hid := by
    rw [Program.fetch_eq (h.get?_old id hid)]
    split
    · exact .with_targets _ _
    · split
      · exact .redirect _ _ _
      · exact .refl _
  added id hid hp := by
    cases List.mem_singleton.1 ((h.splice.mem_iff.1 hid).resolve_left hp)
    rw [Program.fetch_eq h.get?_new]
    exact Origin.noConfusion

/-- The targets of the instructions that were there: the old ones, the head and the assumption. -/
theorem mem_targets_old (h : Forwarded s l condition target p q) (hid : id ∈ p.order)
    (hi : q.get? id = some i) (ht : t ∈ i.targets) :
    t ∈ (p.fetch id).targets ∨ (id = l.exit ∧ t = l.head) ∨
      (id = condition.branch ∧ t = p.fresh) := by
  cases (h.get?_old id hid).symm.trans hi
  split at ht
  · next he => exact .inr (.inl ⟨he, List.mem_singleton.1 ht⟩)
  · split at ht
    · next hb =>
      by_cases hne : t = p.fresh
      · exact .inr (.inr ⟨hb, hne⟩)
      · exact .inl (Instruction.mem_targets_of_redirect ht hne).1
    · exact .inl ht

theorem targetsLive (h : Forwarded s l condition target p q) (hhead : l.head ∈ p.order)
    (hlive : p.TargetsLive) : q.TargetsLive := by
  intro id i hi t ht
  rcases h.splice.mem_iff.1 (Program.mem_of_get? hi) with hid | hid
  · rcases h.mem_targets_old hid hi ht with ht | ⟨-, rfl⟩ | ⟨-, rfl⟩
    · exact h.splice.mem_old (hlive id _ (Program.get?_eq_some_fetch hid) t ht)
    · exact h.splice.mem_old hhead
    · exact h.splice.mem_new List.mem_cons_self
  · cases List.mem_singleton.1 hid
    cases h.get?_new.symm.trans hi
    cases ht

theorem last?_eq (h : Forwarded s l condition target p q) (hexit : l.exit ∈ p.order)
    (hnext : p.next? l.exit ≠ none) : q.last? = p.last? := by
  refine h.splice.last?_eq ?_
  have := Program.position_lt_iff.2 hexit
  have := (Program.next?_eq_none_iff hexit).not.1 hnext
  omega

end Forwarded

/-! ### Assertions -/

/-- The assertions of the front end among some instructions became assumptions. -/
structure Assumed (ids : List InstrId) (p q : Program) : Prop where
  order : q.order = p.order
  get? : ∀ id ∈ p.order, q.get? id = some
    (if id ∈ ids ∧ (p.fetch id).isSourceAssertion = true then { p.fetch id with kind := .assume }
    else p.fetch id)

namespace Assumed

theorem extension (h : Assumed ids p q) : p.Extends q where
  sublist := by rw [h.order]
  retained id hid := by
    rw [Program.fetch_eq (h.get? id hid)]
    split
    · next hc => exact .assumed hc.2
    · exact .refl _
  added id hid hp := absurd (h.order ▸ hid) hp

theorem targets_eq (h : Assumed ids p q) (hid : id ∈ p.order) :
    (q.fetch id).targets = (p.fetch id).targets := by
  rw [Program.fetch_eq (h.get? id hid)]
  split <;> rfl

theorem targetsLive (h : Assumed ids p q) (hlive : p.TargetsLive) : q.TargetsLive := by
  intro id i hi t ht
  have hid : id ∈ p.order := h.order ▸ Program.mem_of_get? hi
  rw [← Program.fetch_eq hi, h.targets_eq hid] at ht
  rw [h.order]
  exact hlive id _ (Program.get?_eq_some_fetch hid) t ht

end Assumed

theorem Edit.run_assumeAssertions {head exit : InstrId} (hrange : p.range head exit = .ok ids) :
    ∃ n q, (assumeAssertions head exit).run p = .ok n q ∧ Assumed ids p q := by
  rw [assumeAssertions, EStateM.run_bind, run_ask_ok hrange]
  refine ⟨_, _, rfl, rfl, fun id hid ↦ ?_⟩
  rw [Program.get?_map, Program.get?_eq_some_fetch hid, Option.map_some]
  simp only [List.mem_filter]

end LoopInduction
