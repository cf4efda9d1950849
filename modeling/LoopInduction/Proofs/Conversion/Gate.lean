import LoopInduction.Proofs.Conversion.Nesting

/-!
# The gate of a loop

Scaffolding a loop puts a block in front of its head and makes the block the *gate* of the loop:
jumps to the head come from inside the loop only, jumps from outside go to the first instruction of
the block, and no jump from inside goes to the block (`Scaffolded.gated`). Every pass keeps the
gates that are there. A pass may write a new jump to the start of a block, and it may copy a jump
that goes there or to the head, but the copy of a jump stands on the same side of the loop as the
jump does (`Gated.of_jumps`).

## Main definitions

* `Program.Inside` : an instruction lies between the head and the exit of a loop.
* `Gated` : a block of scaffolding is the gate of a loop.
-/

namespace LoopInduction

namespace Program

variable {p q : Program} {l m : Loop} {a x y : InstrId} {k : Nat} {new body ids : List InstrId}

/-- The instruction lies in the loop, the exit included. -/
def Inside (p : Program) (l : Loop) (a : InstrId) : Prop :=
  p.position l.head ≤ p.position a ∧ p.position a ≤ p.position l.exit

theorem inside_iff_mem (h : p.range l.head l.exit = .ok body) (ha : a ∈ p.order) :
    p.Inside l a ↔ a ∈ body ++ [l.exit] := by
  rw [mem_range_append_iff h, Inside]
  exact (and_iff_right ha).symm

theorem inside_iff_of_sublist (h : p.order.Sublist q.order) (hl : p.IsLoop l) (ha : a ∈ p.order) :
    q.Inside l a ↔ p.Inside l a := by
  rw [Inside, Inside, position_le_iff_of_sublist h hl.head_mem ha,
    position_le_iff_of_sublist h ha hl.exit_mem]

/-- New instructions are inside the loops that they were spliced into. -/
theorem Splice.inside_new_iff (h : Splice p q k new) (hl : p.IsLoop l) (ha : a ∈ new) :
    q.Inside l a ↔ p.position l.head < k ∧ k ≤ p.position l.exit := by
  rw [Inside, h.position_old_le_new_iff hl.head_mem ha, h.position_new_le_old_iff hl.exit_mem ha]

/-- The body of a later loop is inside or outside together with the place in front of its exit. -/
theorem Later.inside_iff (h : p.Later l m) (hl : p.IsLoop l)
    (hbody : p.range m.head m.exit = .ok body) (ha : a ∈ body) :
    p.Inside l a ↔
      p.position l.head < p.position m.exit ∧ p.position m.exit ≤ p.position l.exit := by
  obtain ⟨-, hhead, hexit⟩ := (mem_range_iff hbody).1 ha
  have hle := hl.le
  rw [Inside]
  rcases h with h | h | ⟨h, h'⟩
  · rw [Before] at h
    omega
  · rw [Before] at h
    omega
  · omega

end Program

open Program

variable {p q : Program} {s : Setup} {l m : Loop} {h : Instruction} {guard guard' : Expr}
  {condition : LoopCondition} {body ids : List InstrId} {a t : InstrId}

namespace Unwound

variable {exit behind marker : InstrId} {builder : GuardBuilder} {copy : InstrId → InstrId}
  {jump : Option InstrId} (hu : Unwound p q body exit behind builder copy jump marker)
  (hl : p.IsLoop l)

include hu hl

/-- The copies are inside the loops that the place in front of the exit is inside of. -/
theorem inside_copy_iff (ha : a ∈ p.kept body) : q.Inside l (copy a) ↔
    p.position l.head < p.position exit ∧ p.position exit ≤ p.position l.exit := by
  obtain ⟨r, hpr, hrq⟩ := hu.splice
  rw [hrq.inside_new_iff (hl.of_sublist hpr.sublist) (List.mem_map_of_mem ha),
    hpr.position_old hl.head_mem, hpr.position_old hl.exit_mem]
  split <;> split <;> omega

/-- The jump over the marker is inside the loops that the place behind the exit is inside of. -/
theorem inside_jump_iff (ha : a ∈ jump) : q.Inside l a ↔
    p.position l.head ≤ p.position exit ∧ p.position exit < p.position l.exit := by
  obtain ⟨r, hpr, hrq⟩ := hu.splice
  have hnew : a ∈ jump.toList ++ [marker] := List.mem_append_left _ (Option.mem_toList.2 ha)
  rw [inside_iff_of_sublist hrq.sublist (hl.of_sublist hpr.sublist) (hpr.mem_new hnew),
    hpr.inside_new_iff hl hnew]
  omega

end Unwound

/-- The block `ids` stands in front of the loop. Only jumps from inside go to the head, only jumps
from outside go to the block, and these go to its start; the exit jumps back and nowhere else. -/
structure Gated (s : Setup) (l : Loop) (h : Instruction) (guard : Expr) (ids : List InstrId)
    (p : Program) : Prop where
  block : ids.map p.fetch = scaffoldBlock s l h guard
  isInfix : ids ++ [l.head] <:+: p.order
  inside_of_head : ∀ a ∈ p.order, l.head ∈ (p.fetch a).targets → p.Inside l a
  start_of_mem : ∀ a ∈ p.order, ∀ t ∈ ids, t ∈ (p.fetch a).targets →
    ids.head? = some t ∧ ¬ p.Inside l a
  targets_exit : (p.fetch l.exit).targets = [l.head]

namespace Gated

section

variable (hg : Gated s l h guard ids p)

include hg

theorem fetch_mem (ha : a ∈ ids) : p.fetch a ∈ scaffoldBlock s l h guard := by
  rw [← hg.block]
  exact List.mem_map_of_mem ha

theorem length_eq : ids.length = l.vars.length + 1 := by
  rw [← length_scaffoldBlock h guard, ← hg.block, List.length_map]

theorem ne_nil : ids ≠ [] := by
  intro hnil
  have := hg.length_eq
  rw [hnil] at this
  cases this

theorem mem_order (ha : a ∈ ids ++ [l.head]) : a ∈ p.order :=
  hg.isInfix.subset ha

theorem targets_eq_nil (ha : a ∈ ids) : (p.fetch a).targets = [] :=
  targets_of_mem_scaffoldBlock (hg.fetch_mem ha)

theorem isScaffold (ha : a ∈ ids) : (p.fetch a).isScaffold = true :=
  isScaffold_of_mem_scaffoldBlock (hg.fetch_mem ha)

theorem isAlwaysTaken (ha : a ∈ ids) : (p.fetch a).isAlwaysTaken = false :=
  isAlwaysTaken_of_mem_scaffoldBlock (hg.fetch_mem ha)

theorem nodup : (ids ++ [l.head]).Nodup :=
  hg.isInfix.sublist.nodup p.order_nodup

theorem head_notMem : l.head ∉ ids := fun hmem ↦
  (List.nodup_append.1 hg.nodup).2.2 _ hmem _ (List.mem_singleton_self _) rfl

/-- The block stands in front of the head. -/
theorem position_lt_head (ha : a ∈ ids) : p.position a < p.position l.head := by
  obtain ⟨k, hk⟩ := exists_position_eq hg.isInfix
  have hlt := List.idxOf_lt_length_of_mem ha
  rw [hk a (List.mem_append_left _ ha), hk l.head (by simp),
    List.idxOf_append_of_mem ha, List.idxOf_append_of_notMem hg.head_notMem]
  omega

/-- Whatever is not the start of the block follows an instruction of the block. -/
theorem head?_eq_or_exists (ht : t ∈ ids ++ [l.head]) :
    ids.head? = some t ∨ ∃ b ∈ ids, [b, t] <:+: ids ++ [l.head] := by
  obtain ⟨c, cs, hcons⟩ := List.exists_cons_of_ne_nil hg.ne_nil
  rw [hcons, List.cons_append] at ht
  rcases List.mem_cons.1 ht with rfl | ht
  · exact .inl (by rw [hcons]; rfl)
  · have htail : t ∈ (ids ++ [l.head]).tail := by rwa [hcons]
    obtain ⟨b, hb, hpiece⟩ := exists_isInfix_of_mem_tail htail
    rw [List.dropLast_concat] at hb
    exact .inr ⟨b, hb, hpiece⟩

/-- A gate stays if its block stays as it is, and if every jump to the block or the head goes to the
start from outside, or is a jump of the program before from the same side. -/
theorem of_jumps (hpiece : ids ++ [l.head] <:+: q.order)
    (hfetch : ∀ id ∈ ids, q.fetch id = p.fetch id)
    (hexit : (q.fetch l.exit).targets = [l.head])
    (hjump : ∀ a ∈ q.order, ∀ t ∈ ids ++ [l.head], t ∈ (q.fetch a).targets →
      (ids.head? = some t ∧ ¬ q.Inside l a) ∨
        ∃ b ∈ p.order, t ∈ (p.fetch b).targets ∧ (q.Inside l a ↔ p.Inside l b)) :
    Gated s l h guard ids q where
  block := by
    rw [← hg.block]
    exact List.map_congr_left hfetch
  isInfix := hpiece
  inside_of_head a ha ht := by
    rcases hjump a ha l.head (by simp) ht with ⟨hstart, -⟩ | ⟨b, hb, htb, hside⟩
    · exact absurd (List.mem_of_mem_head? hstart) hg.head_notMem
    · exact hside.2 (hg.inside_of_head b hb htb)
  start_of_mem a ha t ht hta := by
    rcases hjump a ha t (List.mem_append_left _ ht) hta with hstart | ⟨b, hb, htb, hside⟩
    · exact hstart
    · obtain ⟨hstart, hout⟩ := hg.start_of_mem b hb t ht htb
      exact ⟨hstart, hside.not.2 hout⟩
  targets_exit := hexit

end

/-! ### Passes that keep gates -/

variable {exit target : InstrId} {s' : Setup}

/-- Scaffolding another loop keeps the gate: jumps are redirected from another head only, and to a
new instruction. -/
theorem scaffolded (hg : Gated s l h guard ids p) (hl : p.IsLoop l)
    (hs : Scaffolded s' m guard' body p q) (hhead : m.head ∉ ids ++ [l.head])
    (hexit : m.exit ∉ ids) (hne : l.exit ≠ m.exit) : Gated s l h guard ids q := by
  have hfresh : p.fresh ∉ ids ++ [l.head] := fun hmem ↦ p.fresh_notMem_order (hg.mem_order hmem)
  have hfetch : ∀ a ∈ p.order, a ≠ m.exit → m.head ∉ (p.fetch a).targets →
      q.fetch a = p.fetch a := by
    intro a ha hne hnot
    rw [fetch_eq (hs.get?_old a ha), entered, if_neg hne, Instruction.redirect_of_notMem hnot,
      ite_self]
  refine hg.of_jumps ?_ (fun id hid ↦ ?_) ?_ fun a ha t ht hta ↦ .inr ?_
  · exact hs.splice.isInfix_of_notMem_tail hg.isInfix (hhead ∘ List.mem_of_mem_tail)
  · refine hfetch id (hg.mem_order (List.mem_append_left _ hid)) (fun e ↦ hexit (e ▸ hid)) ?_
    rw [hg.targets_eq_nil hid]
    exact List.not_mem_nil
  · rw [hfetch l.exit hl.exit_mem hne, hg.targets_exit]
    rw [hg.targets_exit, List.mem_singleton]
    exact fun e ↦ hhead (by simp [e])
  · obtain ⟨hap, hta⟩ := hs.mem_targets ha hta
    rcases Scaffolded.mem_targets_entered hta with hta | rfl | rfl
    · exact ⟨a, hap, hta, inside_iff_of_sublist hs.splice.sublist hl hap⟩
    · exact absurd ht hhead
    · exact absurd ht hfresh

/-- Unwinding a loop keeps the gate. The jump over the marker goes to the start of the block where
the block stands behind the loop. -/
theorem unwound {behind marker : InstrId} {builder : GuardBuilder} {copy : InstrId → InstrId}
    {jump : Option InstrId} (hg : Gated s l h guard ids p) (hl : p.IsLoop l)
    (hu : Unwound p q body exit behind builder copy jump marker)
    (hexit : exit ∉ ids ++ [l.head]) (hbody : ∀ u ∈ body, u ∈ p.order)
    (hside : ∀ u ∈ body, p.Inside l u ↔
      p.position l.head < p.position exit ∧ p.position exit ≤ p.position l.exit) :
    Gated s l h guard ids q := by
  obtain ⟨r, hpr, hrq⟩ := hu.splice
  have hnot : exit ∉ ids := fun hmem ↦ hexit (List.mem_append_left _ hmem)
  refine hg.of_jumps (hu.isInfix hg.isInfix hexit) (fun id hid ↦ ?_) ?_ fun a ha t ht hta ↦ ?_
  · exact hu.fetch_old (hg.mem_order (List.mem_append_left _ hid))
  · rw [hu.fetch_old hl.exit_mem, hg.targets_exit]
  · rcases hu.mem_iff.1 ha with hap | (hjump | rfl) | ⟨u, hmem, rfl⟩
    · rw [hu.fetch_old hap] at hta
      exact .inr ⟨a, hap, hta, inside_iff_of_sublist hu.extension.sublist hl hap⟩
    · rw [fetch_eq (hu.get?_guard a hjump)] at hta
      cases List.mem_singleton.1 hta
      obtain ⟨-, -, hbehind⟩ := next?_eq_some_iff.1 hu.next
      rcases hg.head?_eq_or_exists ht with hstart | ⟨b, hb, hbt⟩
      · -- the jump stands between the exit and the block
        have hlt := hg.position_lt_head (List.mem_of_mem_head? hstart)
        refine .inl ⟨hstart, fun hin ↦ ?_⟩
        rw [hu.inside_jump_iff hl hjump] at hin
        omega
      · exact absurd (eq_of_next? (next?_of_isInfix (hbt.trans hg.isInfix)) hu.next ▸ hb) hnot
    · rw [fetch_eq hu.get?_marker] at hta
      cases hta
    · obtain ⟨ts, hget, hts⟩ := hu.get?_copy u hmem
      rw [fetch_eq hget] at hta
      obtain ⟨v, hv, rfl⟩ := (hts t).1 hta
      have hub : u ∈ body := (mem_copied.1 (mem_kept.1 hmem).1).1
      rcases Unwound.copyTarget_cases p body exit copy v with ⟨-, hvt⟩ | ⟨-, hvt | ⟨w, hw, hvt⟩⟩
      · -- the copy stands in front of the exit, so on the side that all of the body is on
        refine .inr ⟨u, hbody u hub, by rwa [hvt], ?_⟩
        rw [hu.inside_copy_iff hl hmem, hside u hub]
      · exact absurd (hvt ▸ ht) hexit
      · rw [hvt] at ht
        exact absurd (hg.mem_order ht) (hrq.notMem_of_mem_new (List.mem_map_of_mem hw) ∘
          hpr.mem_old)

/-- Writing an assumption behind a loop keeps the gate. -/
theorem forwarded (hg : Gated s l h guard ids p) (hl : p.IsLoop l)
    (hf : Forwarded s' m condition target p q) (hmem : m.exit ∈ p.order) (hexit : m.exit ∉ ids)
    (hback : m.exit = l.exit ∧ m.head = l.head ∨ m.exit ≠ l.exit ∧ m.head ∉ ids ++ [l.head])
    (hbranch : l.exit ≠ condition.branch) : Gated s l h guard ids q := by
  have hfresh : p.fresh ∉ ids ++ [l.head] := fun hmem ↦ p.fresh_notMem_order (hg.mem_order hmem)
  refine hg.of_jumps ?_ (fun id hid ↦ ?_) ?_ fun a ha t ht hta ↦ .inr ?_
  · exact hf.splice.isInfix_of_notMem_dropLast hg.isInfix hmem (by rwa [List.dropLast_concat])
  · rw [fetch_eq (hf.get?_old id (hg.mem_order (List.mem_append_left _ hid))),
      if_neg fun e : id = m.exit ↦ hexit (e ▸ hid), Instruction.redirect_of_notMem, ite_self]
    rw [hg.targets_eq_nil hid]
    exact List.not_mem_nil
  · rw [fetch_eq (hf.get?_old l.exit hl.exit_mem)]
    rcases hback with ⟨he, hh⟩ | ⟨hne, -⟩
    · rw [if_pos he.symm, hh]
    · rw [if_neg (Ne.symm hne), if_neg hbranch, hg.targets_exit]
  · rcases hf.splice.mem_iff.1 ha with hap | hnew
    · have hside := inside_iff_of_sublist hf.splice.sublist hl hap
      rw [fetch_eq (hf.get?_old a hap)] at hta
      rcases hf.mem_targets_old hap (hf.get?_old a hap) hta with hta | ⟨rfl, rfl⟩ | ⟨-, rfl⟩
      · exact ⟨a, hap, hta, hside⟩
      · rcases hback with ⟨he, hh⟩ | ⟨-, hnot⟩
        · exact ⟨m.exit, hap, by rw [he, hg.targets_exit, hh]; exact List.mem_singleton_self _,
            hside⟩
        · exact absurd ht hnot
      · exact absurd ht hfresh
    · cases List.mem_singleton.1 hnew
      rw [fetch_eq hf.get?_new] at hta
      cases hta

/-- Turning assertions into assumptions keeps the gate. -/
theorem assumed {asserts : List InstrId} (hg : Gated s l h guard ids p) (hl : p.IsLoop l)
    (ha : Assumed asserts p q) : Gated s l h guard ids q := by
  refine hg.of_jumps ?_ (fun id hid ↦ ?_) ?_ fun a haq t _ hta ↦ .inr ?_
  · rw [ha.order]
    exact hg.isInfix
  · have hsource : (p.fetch id).isSourceAssertion = false := by
      rw [Instruction.isSourceAssertion, (mem_scaffoldBlock (hg.fetch_mem hid)).1]
      exact Bool.and_false _
    rw [fetch_eq (ha.get? id (hg.mem_order (List.mem_append_left _ hid))), hsource]
    exact if_neg fun hc ↦ Bool.false_ne_true hc.2
  · rw [ha.targets_eq hl.exit_mem, hg.targets_exit]
  · rw [ha.order] at haq
    rw [ha.targets_eq haq] at hta
    exact ⟨a, haq, hta, inside_iff_of_sublist ha.extension.sublist hl haq⟩

/-! ### A conversion -/

variable {points : Option IterationPoints} {assumption : Option InstrId} {p₁ p₂ p₃ : Program}

/-- The passes behind scaffolding keep the gate, both of the loop itself and of another one. -/
private theorem of_passes (hg : Gated s l h guard ids p) (hl : p.IsLoop l)
    (hbody : p.range m.head m.exit = .ok body) (hu : UnwoundIf s' m body points p p₂)
    (hf : ForwardedIf s' m condition assumption p₂ p₃) (ha : AssumedIf s' m p₃ q)
    (hexit : m.exit ∉ ids ++ [l.head])
    (hside : ∀ u ∈ body, p.Inside l u ↔
      p.position l.head < p.position m.exit ∧ p.position m.exit ≤ p.position l.exit)
    (hback : m.exit = l.exit ∧ m.head = l.head ∨ m.exit ≠ l.exit ∧ m.head ∉ ids ++ [l.head])
    (hbranch : l.exit ≠ condition.branch) : Gated s l h guard ids q := by
  have h₂ : Gated s l h guard ids p₂ := by
    obtain heq | ⟨_, _, _, _, hunwound⟩ := hu.eq_or_exists
    · exact heq ▸ hg
    · exact hg.unwound hl hunwound hexit (fun u hu ↦ ((mem_range_iff hbody).1 hu).1) hside
  have hl₂ := hl.of_extends hu.extension
  have h₃ : Gated s l h guard ids p₃ := by
    obtain heq | ⟨_, -, -, hforwarded⟩ := hf.eq_or_exists
    · exact heq ▸ h₂
    · exact h₂.forwarded hl₂ hforwarded (hu.extension.mem (range_eq_ok hbody).2.1)
        (fun hmem ↦ hexit (List.mem_append_left _ hmem)) hback hbranch
  obtain heq | ⟨_, ha⟩ := ha.eq_or_exists
  · exact heq ▸ h₃
  · exact h₃.assumed (hl₂.of_extends hf.extension) ha

/-- Converting a later loop with another head keeps the gate. -/
theorem converted (hg : Gated s l h guard ids p) (hl : p.IsLoop l)
    (hconv : Converted s' m body condition points assumption p p₁ p₂ p₃ q)
    (hcond : p.HasCondition m body condition) (hlm : p.Later l m) (hne : m.head ≠ l.head)
    (hhead : (p.fetch m.head).isScaffold = false) (hexit : (p.fetch m.exit).isScaffold = false) :
    Gated s l h guard ids q := by
  have hnot : ∀ a, (p.fetch a).isScaffold = false → a ∉ ids := fun a ha hmem ↦ by
    rw [hg.isScaffold hmem] at ha
    cases ha
  have hhead' : m.head ∉ ids ++ [l.head] := by simp [hnot _ hhead, hne]
  obtain ⟨hbranch, hexit_ne⟩ : l.exit ∉ body ∧ l.exit ≠ m.exit := by
    simpa using hlm.exit_notMem hl hcond.range
  have hexit' : m.exit ∉ ids ++ [l.head] := by
    have hlt := (mem_range_iff hcond.range).1 hcond.branch_mem
    have hle := hl.le
    simp only [List.mem_append, List.mem_singleton, not_or]
    refine ⟨hnot _ hexit, fun e ↦ ?_⟩
    rw [Later, Before, Before, Within, e] at hlm
    rw [e] at hlt
    omega
  have hs := hconv.scaffolded
  have hext := hs.extension
  have hm := exists_range_iff_isLoop.1 ⟨body, hcond.range⟩
  have hrange := hs.range hcond.range
  exact (hg.scaffolded hl hs hhead' (hnot _ hexit) hexit_ne).of_passes (hl.of_extends hext) hrange
    hconv.unwound hconv.forwarded hconv.assumed hexit'
    (fun u ↦ (hlm.of_extends hext hl hm).inside_iff (hl.of_extends hext) hrange)
    (.inr ⟨Ne.symm hexit_ne, hhead'⟩) fun e ↦ hbranch (e ▸ hcond.branch_mem)

end Gated

/-- Scaffolding makes the block in front of the head the gate of the loop. -/
theorem Scaffolded.gated (hs : Scaffolded s l guard body p q)
    (hbody : p.range l.head l.exit = .ok body) (hlive : p.TargetsLive) :
    Gated s l (p.fetch l.head) guard (p.freshIds (l.vars.length + 1)) q := by
  obtain ⟨hhead, hexit, -⟩ := range_eq_ok hbody
  have hl := exists_range_iff_isLoop.1 ⟨body, hbody⟩
  have hside := fun a ha ↦ inside_iff_of_sublist (a := a) hs.splice.sublist hl ha
  constructor
  case block => exact hs.map_fetch_freshIds
  case isInfix =>
    refine ⟨p.order.take (p.position l.head), p.order.drop (p.position l.head + 1), ?_⟩
    rw [hs.splice.order, drop_position hhead]
    simp only [List.append_assoc, List.singleton_append]
  case inside_of_head =>
    intro a ha ht
    obtain ⟨hap, ht⟩ := hs.mem_targets ha ht
    rw [hside a hap, inside_iff_mem hbody hap]
    exact Scaffolded.mem_of_head_mem_targets_entered
      (fun e : l.head = p.fresh ↦ p.fresh_notMem_order (e ▸ hhead)) ht
  case start_of_mem =>
    intro a ha t htnew ht
    obtain ⟨hap, ht⟩ := hs.mem_targets ha ht
    have hold : t ∉ (p.fetch a).targets := fun ht ↦
      hs.splice.notMem_of_mem_new htnew (hlive a _ (get?_eq_some_fetch hap) t ht)
    have hthead : t ≠ l.head := fun e ↦ hs.splice.notMem_of_mem_new htnew (e ▸ hhead)
    obtain ⟨rfl, hout⟩ := Scaffolded.of_mem_targets_entered hthead hold ht
    rw [hside a hap, inside_iff_mem hbody hap]
    exact ⟨head?_freshIds _, hout⟩
  case targets_exit => rw [fetch_eq (hs.get?_old _ hexit), entered, if_pos rfl]

/-- After its conversion a loop has a gate. -/
theorem Converted.gated {points : Option IterationPoints} {assumption : Option InstrId}
    {p₁ p₂ p₃ : Program}
    (hconv : Converted s l body condition points assumption p p₁ p₂ p₃ q)
    (hcond : p.HasCondition l body condition) (hlive : p.TargetsLive) :
    ∃ ids, Gated s l (p.fetch l.head) condition.guard ids q := by
  have hs := hconv.scaffolded
  have hl := exists_range_iff_isLoop.1 ⟨body, hcond.range⟩
  have hlt := (mem_range_iff hcond.range).1 hcond.branch_mem
  have hg := hs.gated hcond.range hlive
  have hrange := hs.range hcond.range
  refine ⟨_, hg.of_passes (hl.of_extends hs.extension) hrange hconv.unwound hconv.forwarded
    hconv.assumed ?_ (fun u hu ↦ ?_) (.inl ⟨rfl, rfl⟩) (Ne.symm hcond.branch_ne_exit)⟩
  · simp only [List.mem_append, List.mem_singleton, not_or]
    refine ⟨fun hmem ↦ hs.splice.notMem_of_mem_new hmem hl.exit_mem, fun e ↦ ?_⟩
    rw [e] at hlt
    omega
  · have hu := (mem_range_iff hrange).1 hu
    rw [Inside]
    omega

end LoopInduction
