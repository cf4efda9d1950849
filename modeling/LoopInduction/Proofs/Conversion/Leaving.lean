import LoopInduction.Proofs.Conversion.Assumptions
import LoopInduction.Proofs.Conversion.Gate
import LoopInduction.Proofs.Conversion.Success

/-!
# Leaving a loop through its assumption

Behind the exit of a converted loop stands the assumption that was written for it, to the end of the
run (`Closed.converted`). Whether the first conditional jump of the loop is still the one jump that
goes there depends on the loops inside: if the jump lies in the body of one of them, it is the first
conditional jump of that loop too. That loop is converted later; its copy of the jump then goes to
the assumption of the outer loop, for which it was not made. If the jump lies in no body of a loop
inside, nothing else ever goes to the assumption (`Functions.run_jumpSources`).

## Main definitions

* `Program.InBody` : an instruction lies in the body of a loop.
* `Closed` : the assumption that was written for a loop stands behind its exit.
* `WayOut` : which jumps go to that assumption.
* `Departed` : what a run keeps of the way out of a loop.

## Main results

* `Functions.run_jumpSources` : the jumps to the assumption behind a loop after a run.
-/

namespace LoopInduction

namespace Program

variable {p : Program} {l m : Loop} {a : InstrId} {body : List InstrId}

/-- The instruction lies in the body of the loop. -/
def InBody (p : Program) (l : Loop) (a : InstrId) : Prop :=
  p.position l.head ≤ p.position a ∧ p.position a < p.position l.exit

theorem inBody_iff_mem (h : p.range l.head l.exit = .ok body) (ha : a ∈ p.order) :
    p.InBody l a ↔ a ∈ body := by
  rw [mem_range_iff h, InBody]
  exact (and_iff_right ha).symm

/-- A later loop with an instruction of a body in its own body lies in that body. -/
theorem Later.within_of_inBody (h : p.Later l m) (hl : p.InBody l a) (hm : p.InBody m a) :
    p.Within m l := by
  rw [InBody] at hl hm
  rcases h with h | h | h
  · rw [Before] at h
    omega
  · rw [Before] at h
    omega
  · exact h

/-- A loop does not lie in the body of a later one. -/
theorem Later.not_within (h : p.Later l m) (hl : p.IsLoop l) (hm : p.IsLoop m) :
    ¬ p.Within l m := by
  have := hl.le
  have := hm.le
  rw [Later, Before, Before, Within] at h
  rw [Within]
  omega

end Program

open Program

variable {p₀ p q p₁ p₂ p₃ : Program} {s : Setup} {l m : Loop} {guard e : Expr}
  {condition : LoopCondition} {body ids : List InstrId} {a b c target : InstrId}
  {points : Option IterationPoints} {assumption : Option InstrId} {name : String}

/-! ### The jumps to an instruction that was there before -/

/-- If the new instructions do not jump to it, the jumps to an instruction are old ones. -/
theorem Program.Splice.mem_jumpSources_iff {k : Nat} (h : p.Splice q k ids)
    (hids : ∀ c ∈ ids, a ∉ (q.fetch c).targets) :
    c ∈ q.jumpSources a ↔ c ∈ p.order ∧ a ∈ (q.fetch c).targets := by
  rw [Program.mem_jumpSources_iff]
  constructor
  · intro hat
    exact ⟨(h.mem_iff.1 (mem_of_mem_targets hat)).resolve_right fun hc ↦ hids c hc hat, hat⟩
  · exact And.right

namespace Scaffolded

/-- Scaffolding redirects jumps to the head only, apart from what the exit did. -/
theorem mem_jumpSources_iff (h : Scaffolded s m guard body p q) (ha : a ∈ p.order)
    (hne : a ≠ m.head) : c ∈ q.jumpSources a ↔ c ≠ m.exit ∧ c ∈ p.jumpSources a := by
  have hfresh : a ≠ p.fresh := fun e ↦ p.fresh_notMem_order (e ▸ ha)
  have hold : c ∈ p.order → (a ∈ (q.fetch c).targets ↔ c ≠ m.exit ∧ a ∈ (p.fetch c).targets) := by
    intro hc
    rw [fetch_eq (h.get?_old c hc), entered]
    split
    · next he => simp [he, hne]
    · next he =>
      rw [and_iff_right he]
      split
      · rfl
      · constructor
        · intro hat
          exact (Instruction.mem_targets_of_redirect hat hfresh).1
        · intro hat
          exact Instruction.mem_targets_redirect.2 ⟨a, hat, if_neg hne⟩
  rw [h.splice.mem_jumpSources_iff fun u hu ↦ by simp [h.targets_eq_nil hu],
    Program.mem_jumpSources_iff]
  constructor
  · rintro ⟨hc, hat⟩
    exact (hold hc).1 hat
  · rintro ⟨he, hat⟩
    have hc := mem_of_mem_targets hat
    exact ⟨hc, (hold hc).2 ⟨he, hat⟩⟩

end Scaffolded

namespace Unwound

variable {exit behind marker : InstrId} {builder : GuardBuilder} {copy : InstrId → InstrId}
  {jump : Option InstrId}

/-- A copy jumps out of the body to where the original does. -/
theorem mem_jumpSources_copy_iff (h : Unwound p q body exit behind builder copy jump marker)
    (ha : a ∈ p.order) (hbody : a ∉ body) (hexit : a ≠ exit) (hc : c ∈ p.kept body) :
    copy c ∈ q.jumpSources a ↔ c ∈ p.jumpSources a := by
  obtain ⟨ts, hget, hts⟩ := h.get?_copy c hc
  rw [Program.mem_jumpSources_iff, Program.mem_jumpSources_iff, fetch_eq hget]
  refine (hts a).trans ⟨?_, fun hat ↦ ⟨a, hat, copyTarget_of_notMem fun hmem ↦
    hbody (mem_copied.1 hmem).1⟩⟩
  rintro ⟨v, hv, hva⟩
  rcases copyTarget_cases p body exit copy v with ⟨-, hvt⟩ | ⟨-, hvt | ⟨w, hw, hvt⟩⟩
  · rwa [← hva, hvt]
  · exact absurd (hva.symm.trans hvt) hexit
  · obtain ⟨r, hpr, hrq⟩ := h.splice
    rw [hva] at hvt
    exact absurd (hpr.mem_old ha) (hrq.notMem_of_mem_new (hvt ▸ List.mem_map_of_mem hw))

/-- Unwinding leaves the jumps out of the body as they are and adds those of the copies. -/
theorem mem_jumpSources_iff (h : Unwound p q body exit behind builder copy jump marker)
    (ha : a ∈ p.order) (hbody : a ∉ body) (hexit : a ≠ exit) (hbehind : a ≠ behind) :
    c ∈ q.jumpSources a ↔
      c ∈ p.jumpSources a ∨ ∃ u ∈ p.kept body, u ∈ p.jumpSources a ∧ copy u = c := by
  have hold : c ∈ p.order → (c ∈ q.jumpSources a ↔ c ∈ p.jumpSources a) := fun hc ↦ by
    rw [Program.mem_jumpSources_iff, Program.mem_jumpSources_iff, h.fetch_old hc]
  constructor
  · intro hat
    rcases h.mem_iff.1 (mem_of_mem_targets (Program.mem_jumpSources_iff.1 hat)) with
      hc | (hjump | rfl) | ⟨u, hu, rfl⟩
    · exact .inl ((hold hc).1 hat)
    · rw [Program.mem_jumpSources_iff, fetch_eq (h.get?_guard c hjump)] at hat
      exact absurd (List.mem_singleton.1 hat) hbehind
    · rw [Program.mem_jumpSources_iff, fetch_eq h.get?_marker] at hat
      cases hat
    · exact .inr ⟨u, hu, (h.mem_jumpSources_copy_iff ha hbody hexit hu).1 hat, rfl⟩
  · rintro (hat | ⟨u, hu, hat, rfl⟩)
    · exact (hold (mem_of_mem_targets (Program.mem_jumpSources_iff.1 hat))).2 hat
    · exact (h.mem_jumpSources_copy_iff ha hbody hexit hu).2 hat

end Unwound

/-- An assumption jumps nowhere. -/
theorem Forwarded.notMem_targets_new (h : Forwarded s m condition target p q) :
    ∀ c ∈ [p.fresh], a ∉ (q.fetch c).targets := by
  intro c hc
  rw [List.mem_singleton.1 hc, fetch_eq h.get?_new]
  exact List.not_mem_nil

/-- The assumption behind a loop takes over the target by which the branch left the loop. -/
theorem Forwarded.mem_jumpSources_iff (h : Forwarded s m condition target p q) (ha : a ∈ p.order)
    (hne : a ≠ m.head) : c ∈ q.jumpSources a ↔
      c ≠ m.exit ∧ c ∈ p.jumpSources a ∧ (c = condition.branch → a ≠ target) := by
  have hfresh : a ≠ p.fresh := fun e ↦ p.fresh_notMem_order (e ▸ ha)
  have hold : c ∈ p.order → (a ∈ (q.fetch c).targets ↔
      c ≠ m.exit ∧ a ∈ (p.fetch c).targets ∧ (c = condition.branch → a ≠ target)) := by
    intro hc
    rw [fetch_eq (h.get?_old c hc)]
    split
    · next he => simp [he, hne]
    · next he =>
      rw [and_iff_right he]
      split
      · next hb =>
        constructor
        · intro hat
          obtain ⟨hat, hta⟩ := Instruction.mem_targets_of_redirect hat hfresh
          exact ⟨hat, fun _ ↦ hta⟩
        · rintro ⟨hat, hta⟩
          exact Instruction.mem_targets_redirect.2 ⟨a, hat, if_neg (hta hb)⟩
      · next hb => simp [hb]
  rw [h.splice.mem_jumpSources_iff h.notMem_targets_new, Program.mem_jumpSources_iff]
  constructor
  · rintro ⟨hc, hat⟩
    exact (hold hc).1 hat
  · rintro ⟨he, hat, hta⟩
    have hc := mem_of_mem_targets hat
    exact ⟨hc, (hold hc).2 ⟨he, hat, hta⟩⟩

theorem AssumedIf.mem_jumpSources_iff (h : AssumedIf s l p q) :
    c ∈ q.jumpSources a ↔ c ∈ p.jumpSources a := by
  obtain rfl | ⟨_, h⟩ := h.eq_or_exists
  · rfl
  · rw [Program.mem_jumpSources_iff, Program.mem_jumpSources_iff]
    constructor
    · intro hat
      have hc : c ∈ p.order := h.order ▸ mem_of_mem_targets hat
      rwa [h.targets_eq hc] at hat
    · intro hat
      rwa [h.targets_eq (mem_of_mem_targets hat)]

/-! ### The assumption behind a loop -/

/-- The passes of a conversion that writes an assumption behind the loop. -/
theorem Converted.exists_passes
    (h : Converted s l body condition points assumption p p₁ p₂ p₃ q)
    (hafter : s.config.assumesAfter = true) : ∃ behind copy jump marker target,
      Unwound p₁ p₂ body l.exit behind s.builder copy jump marker ∧
        assumption = some p₂.fresh ∧ condition.exitTarget = some target ∧
          Forwarded s l condition target p₂ p₃ := by
  have hforwarded := h.forwarded
  have hunwound := h.unwound
  cases assumption with
  | none =>
    rw [hforwarded.1] at hafter
    cases hafter
  | some a =>
    obtain ⟨-, rfl, target, htarget, hforwarded⟩ := hforwarded
    cases points with
    | none =>
      rw [Config.assumesAfter, hunwound.1] at hafter
      cases hafter
    | some pts =>
      obtain ⟨-, behind, copy, jump, hunwound, -⟩ := hunwound
      exact ⟨behind, copy, jump, pts.firstExit, target, hunwound, rfl, htarget, hforwarded⟩

/-- Behind the exit of the loop stands the assumption of `e` that was written for it. -/
structure Closed (p₀ : Program) (l : Loop) (a : InstrId) (e : Expr) (p : Program) : Prop where
  notMem : a ∉ p₀.order
  next : p.next? l.exit = some a
  assumes : p.Assumes a e

namespace Closed

section

variable (hc : Closed p₀ l a e p)

include hc

theorem mem : a ∈ p.order :=
  mem_of_next? hc.next

theorem ne (hb : b ∈ p₀.order) : a ≠ b := fun e ↦
  hc.notMem (e ▸ hb)

/-- A pass that extends the program keeps the assumption where it is, if the two of them stay next
to each other. -/
theorem of_extends (hext : p.Extends q) (hnext : q.next? l.exit = some a) : Closed p₀ l a e q where
  notMem := hc.notMem
  next := hnext
  assumes := hc.assumes.of_retained (hext.retained a hc.mem)

end

/-- Converting another loop, with another exit, keeps the assumption where it is. -/
theorem converted (hc : Closed p₀ l a e p) (hext : p₀.Extends p) (hm : p₀.IsLoop m)
    (hne : l.exit ≠ m.exit)
    (hconv : Converted s m body condition points assumption p p₁ p₂ p₃ q) :
    Closed p₀ l a e p₁ ∧ Closed p₀ l a e p₂ ∧ Closed p₀ l a e q := by
  have hext₁ := hconv.scaffolded.extension
  obtain ⟨h₁, h₂, h₃⟩ := hconv.isInfix (hext.mem hm.exit_mem) (isInfix_of_next? hc.next)
    (by simpa using (hc.ne hm.head_mem).symm)
    (by simpa using ⟨hne.symm, (hc.ne hm.exit_mem).symm⟩)
  exact ⟨hc.of_extends hext₁ (next?_of_isInfix h₁),
    hc.of_extends (hext₁.trans hconv.unwound.extension) (next?_of_isInfix h₂),
    hc.of_extends hconv.extension (next?_of_isInfix h₃)⟩

/-- The jumps to the assumption once another loop has been converted: those of before, except what
was the exit or was redirected, and their copies. -/
theorem exists_copy (hc : Closed p₀ l a e p) (hext : p₀.Extends p) (hm : p₀.IsLoop m)
    (hne : l.exit ≠ m.exit) (hcond : p.HasCondition m body condition)
    (hbody : ∀ u ∈ body, u ∈ p₀.order) (hafter : s.config.assumesAfter = true)
    (hconv : Converted s m body condition points assumption p p₁ p₂ p₃ q) :
    ∃ copy : InstrId → InstrId, (∀ u ∈ p₁.kept body, copy u ∉ p₁.order) ∧
      ∀ c, c ∈ q.jumpSources a ↔ (c ≠ m.exit ∧ c ∈ p.jumpSources a ∨
        ∃ u ∈ p₁.kept body, u ∈ p.jumpSources a ∧ copy u = c) ∧
          (c = condition.branch → condition.exitTarget ≠ some a) := by
  obtain ⟨h₁, h₂, -⟩ := hc.converted hext hm hne hconv
  obtain ⟨behind, copy, jump, marker, target, hunwound, -, htarget, hforwarded⟩ :=
    hconv.exists_passes hafter
  have hexit₁ := hconv.scaffolded.extension.mem (hext.mem hm.exit_mem)
  have hbehind : a ≠ behind := fun e ↦ hne (eq_of_next? h₁.next (e ▸ hunwound.next))
  have hnew : ∀ u ∈ p₁.kept body, copy u ∉ p₁.order := by
    obtain ⟨r, hpr, hrq⟩ := hunwound.splice
    exact fun u hu ↦ hrq.notMem_of_mem_new (List.mem_map_of_mem hu) ∘ hpr.mem_old
  refine ⟨copy, hnew, fun c ↦ ?_⟩
  rw [hconv.assumed.mem_jumpSources_iff,
    hforwarded.mem_jumpSources_iff h₂.mem (h₂.ne hm.head_mem),
    hunwound.mem_jumpSources_iff h₁.mem (fun hmem ↦ h₁.notMem (hbody a hmem))
      (h₁.ne hm.exit_mem) hbehind, htarget]
  simp only [hconv.scaffolded.mem_jumpSources_iff hc.mem (hc.ne hm.head_mem), ne_eq,
    Option.some.injEq, eq_comm (a := target)]
  constructor
  · rintro ⟨-, hsource | ⟨u, hu, ⟨-, hsource⟩, rfl⟩, hta⟩
    · exact ⟨.inl hsource, hta⟩
    · exact ⟨.inr ⟨u, hu, hsource, rfl⟩, hta⟩
  · rintro ⟨⟨hne, hsource⟩ | ⟨u, hu, hsource, rfl⟩, hta⟩
    · exact ⟨hne, .inl ⟨hne, hsource⟩, hta⟩
    · refine ⟨fun e ↦ hnew u hu (e ▸ hexit₁), .inr ⟨u, hu, ⟨fun e ↦ ?_, hsource⟩, rfl⟩, hta⟩
      exact notMem_of_range hcond.range (e ▸ (mem_copied.1 (mem_kept.1 hu).1).1)

end Closed

/-- Converting a loop writes an assumption behind it, to which only its branch jumps. -/
theorem Converted.closed (hconv : Converted s l body condition points assumption p p₁ p₂ p₃ q)
    (hafter : s.config.assumesAfter = true) (hcond : p.HasCondition l body condition)
    (hext : p₀.Extends p) (hlive : p.TargetsLive) :
    ∃ a, assumption = some a ∧
      Closed p₀ l a (s.builder.negate condition.guard.normalized) q ∧
        ∀ c, c ∈ q.jumpSources a ↔ c = condition.branch := by
  obtain ⟨behind, copy, jump, marker, target, hunwound, hassumption, htarget, hforwarded⟩ :=
    hconv.exists_passes hafter
  obtain ⟨hhead, hexit, -⟩ := range_eq_ok hcond.range
  have hext₁ := hconv.scaffolded.extension
  have hext₂ := hext₁.trans hunwound.extension
  have hmem₁ : ∀ u ∈ body, u ∈ p₁.order := fun u hu ↦
    hext₁.mem ((mem_range_iff hcond.range).1 hu).1
  have hlive₂ : p₂.TargetsLive :=
    hunwound.targetsLive hmem₁ (hconv.scaffolded.targetsLive hhead hlive)
  have hbranch₁ := hmem₁ _ hcond.branch_mem
  have hbranch₂ : p₂.fetch condition.branch = p.fetch condition.branch := by
    rw [hunwound.fetch_old hbranch₁, hconv.scaffolded.fetch_of_mem_body hcond.branch_mem
      hcond.branch_mem_order hcond.branch_ne_exit]
  have hnext := hforwarded.next?_exit (hext₂.mem hexit)
  refine ⟨p₂.fresh, hassumption, ⟨?_, ?_, ?_⟩, fun c ↦ ?_⟩
  · exact fun hmem ↦ p₂.fresh_notMem_order (hext₂.mem (hext.mem hmem))
  · rw [hconv.assumed.next?_eq, hnext]
  · exact hforwarded.assumes.of_retained (hconv.assumed.extension.retained _ (mem_of_next? hnext))
  · rw [hconv.assumed.mem_jumpSources_iff,
      hforwarded.splice.mem_jumpSources_iff hforwarded.notMem_targets_new]
    constructor
    · rintro ⟨hc, hat⟩
      have hget := get?_eq_some_fetch (hforwarded.splice.mem_old hc)
      rcases hforwarded.mem_targets_old hc hget hat with hat | ⟨-, he⟩ | ⟨hb, -⟩
      · exact absurd (hlive₂ c _ (get?_eq_some_fetch hc) _ hat) p₂.fresh_notMem_order
      · exact absurd (he ▸ hext₂.mem hhead) p₂.fresh_notMem_order
      · exact hb
    · rintro rfl
      have hc := hunwound.extension.mem hbranch₁
      refine ⟨hc, ?_⟩
      rw [fetch_eq (hforwarded.get?_old _ hc), if_neg hcond.branch_ne_exit, if_pos rfl, hbranch₂]
      exact Instruction.mem_targets_redirect.2
        ⟨target, (hcond.mem_targets_of_exitTarget htarget).1, if_pos rfl⟩

/-! ### The way out of a loop -/

/-- The jumps to the assumption `a` behind a loop with the branch `b`, once the loops `done` have
been dealt with. -/
inductive WayOut (p₀ : Program) (l : Loop) (done : List Loop) (b a : InstrId) (p : Program) : Prop
  /-- No loop inside has the branch in its body, and only the branch jumps to the assumption. -/
  | own : (∀ m ∈ done, p₀.Within m l → ¬ p₀.InBody m b) → (∀ c, c ∈ p.jumpSources a ↔ c = b) →
      WayOut p₀ l done b a p
  /-- A loop inside has the branch in its body, and a copy of it jumps to the assumption. -/
  | shared {m : Loop} {c : InstrId} : m ∈ done → p₀.Within m l → p₀.InBody m b →
      c ∈ p.jumpSources a → c ∉ p₀.order → WayOut p₀ l done b a p

namespace WayOut

variable {done : List Loop} {todo : List Loop} {branch : LoopCondition} {outer : List InstrId}

/-- The branch of a loop is no exit of a later one that is converted. -/
theorem branch_ne_exit (hbranch : p₀.HasCondition l outer branch) (hlm : p₀.Later l m)
    (hm : p₀.range m.head m.exit = .ok body) (hjump : b ∈ body)
    (hb : (p₀.fetch b).isConditionalJump = true) : branch.branch ≠ m.exit := by
  intro he
  rcases hlm.subset_or_disjoint hbranch.range hm with hin | hdisjoint
  · have hle := hbranch.position_branch_le (hin b (List.mem_append_left _ hjump)) hb
    have hlt := (mem_range_iff hm).1 hjump
    rw [he] at hle
    omega
  · exact hdisjoint m.exit (by simp) (List.mem_append_left _ (he ▸ hbranch.branch_mem))

theorem forall_mem_append (hnone : ∀ m ∈ done, p₀.Within m l → ¬ p₀.InBody m b)
    (hm : ¬ p₀.InBody m b) : ∀ m' ∈ done ++ [m], p₀.Within m' l → ¬ p₀.InBody m' b := by
  intro m' hm' hwithin
  rcases List.mem_append.1 hm' with hm' | hm'
  · exact hnone m' hm' hwithin
  · cases List.mem_singleton.1 hm'
    exact hm

/-- A loop that nothing happens to makes no difference, if the branch is not in its body. -/
theorem skipped (hw : WayOut p₀ l done b a p) (hm : ¬ p₀.InBody m b) :
    WayOut p₀ l (done ++ [m]) b a p := by
  cases hw with
  | own hnone honly => exact .own (forall_mem_append hnone hm) honly
  | shared hmem hwithin hin hsource hout =>
    exact .shared (List.mem_append_left _ hmem) hwithin hin hsource hout

/-- Converting a later loop adds a jump to the assumption exactly if it copies the branch. -/
theorem converted (hw : WayOut p₀ l done branch.branch a p) (hc : Closed p₀ l a e p)
    (hbranch : p₀.HasCondition l outer branch) (hclean : p₀.Clean) (hl : p₀.IsLoop l)
    (hp : Pending p₀ (m :: todo) p) (hlm : p₀.Later l m) (hafter : s.config.assumesAfter = true)
    (hcond : p.HasCondition m body condition)
    (hconv : Converted s m body condition points assumption p p₁ p₂ p₃ q) :
    WayOut p₀ l (done ++ [m]) branch.branch a q := by
  obtain ⟨hbody, hfirst⟩ := hp.find?_of_hasCondition hcond
  have hm := hp.isLoop m List.mem_cons_self
  have hmem : ∀ u ∈ body, u ∈ p₀.order := fun u hu ↦ ((mem_range_iff hbody).1 hu).1
  have hne : l.exit ≠ m.exit := fun e ↦ hlm.exit_notMem hl hbody (by simp [e])
  obtain ⟨copy, hnew, hjumps⟩ := hc.exists_copy hp.extension hm hne hcond hmem hafter hconv
  have hext₁ := hp.extension.trans hconv.scaffolded.extension
  have hb := hbranch.branch_mem_order
  have hjump := List.find?_some hbranch.branch
  have hfirst := List.find?_some hfirst
  cases hw with
  | shared hdone hwithin hin hsource hout =>
    refine .shared (List.mem_append_left _ hdone) hwithin hin ((hjumps _).2 ⟨.inl ⟨?_, hsource⟩,
      fun he ↦ ?_⟩) hout
    · exact fun he ↦ hout (he ▸ hm.exit_mem)
    · exact absurd (he ▸ hmem _ hcond.branch_mem) hout
  | own hnone honly =>
    by_cases hin : p₀.InBody m branch.branch
    · have hbm : branch.branch ∈ body := (inBody_iff_mem hbody hb).1 hin
      have hkept : branch.branch ∈ p₁.kept body := by
        have hretained := hext₁.retained _ hb
        refine mem_kept.2 ⟨mem_copied.2 ⟨hbm, ?_⟩, Instruction.isSkip_of_isConditionalJump ?_⟩
        · rw [hretained.isScaffold_eq, hclean.isScaffold _ hb]
        · rw [hretained.isConditionalJump_eq, hjump]
      have hcopy := hnew _ hkept
      refine .shared (by simp) (hlm.within_of_inBody ?_ hin) hin ((hjumps _).2
        ⟨.inr ⟨_, hkept, (honly _).2 rfl, rfl⟩, fun he ↦ ?_⟩) (hcopy ∘ hext₁.mem)
      · exact (inBody_iff_mem hbranch.range hb).2 hbranch.branch_mem
      · exact absurd (he ▸ hext₁.mem (hmem _ hcond.branch_mem)) hcopy
    · have hbm : branch.branch ∉ body := fun hbm ↦ hin ((inBody_iff_mem hbody hb).2 hbm)
      refine .own (forall_mem_append hnone hin) fun c ↦ (hjumps c).trans ⟨?_, ?_⟩
      · rintro ⟨⟨-, hsource⟩ | ⟨u, hu, hsource, -⟩, -⟩
        · exact (honly c).1 hsource
        · exact absurd ((honly u).1 hsource ▸ (mem_copied.1 (mem_kept.1 hu).1).1) hbm
      · rintro rfl
        refine ⟨.inl ⟨branch_ne_exit hbranch hlm hbody hcond.branch_mem hfirst,
          (honly _).2 rfl⟩, fun he ↦ absurd (he ▸ hcond.branch_mem) hbm⟩

end WayOut

/-! ### The run over a function -/

/-- What a run keeps of the way out of a loop that came to the verdict `v`, once the loops `done`
have been dealt with. -/
def Departed (s : Setup) (name : String) (p₀ : Program) (l : Loop) (done : List Loop) (v : Verdict)
    (p : Program) : Prop :=
  ∀ sm, v = .converted sm → sm.function = name ∧ sm.head = l.head ∧ sm.exit = l.exit ∧
    ∃ body condition a, p₀.HasCondition l body condition ∧ sm.branch = some condition.branch ∧
      sm.assumption = some a ∧ Closed p₀ l a (s.builder.negate condition.guard.normalized) p ∧
        WayOut p₀ l done condition.branch a p

section

variable {done todo : List Loop} {v w : Verdict}

/-- Dealing with a loop gives it a way out of its own. -/
theorem Departed.of_dealt (hp : Pending p₀ (l :: todo) p)
    (hdone : ∀ m ∈ done ++ [l], ¬ p₀.Within m l) (hafter : s.config.assumesAfter = true)
    (hd : Dealt s name l p v q) : Departed s name p₀ l (done ++ [l]) v q := by
  cases hd with
  | skipped => exact fun _ hsm ↦ Verdict.noConfusion hsm
  | @converted body condition _ _ _ _ _ _ hcond hconv =>
    obtain ⟨condition₀, hcond₀, hbranch, hguard⟩ := hp.exists_hasCondition hcond
    obtain ⟨a, rfl, hclosed, honly⟩ := hconv.closed hafter hcond hp.extension hp.live
    rw [← hguard] at hclosed
    rw [← hbranch] at honly
    rintro sm hsm
    cases hsm
    exact ⟨rfl, rfl, rfl, body, condition₀, a, hcond₀, congrArg some hbranch.symm, rfl, hclosed,
      .own (fun m hm hwithin ↦ absurd hwithin (hdone m hm)) honly⟩

/-- Dealing with a later loop keeps the way out of a loop, or has it shared. -/
theorem Departed.later (hout : Departed s name p₀ l done v p) (hl : p₀.IsLoop l)
    (hp : Pending p₀ (m :: todo) p) (hclean : p₀.Clean) (hlm : p₀.Later l m)
    (hafter : s.config.assumesAfter = true)
    (hrun : (Edit.atLoop name m (Edit.convertLoop s name m)).run p = .ok w q) :
    Departed s name p₀ l (done ++ [m]) v q := by
  have hm := hp.isLoop m List.mem_cons_self
  intro sm hsm
  obtain ⟨hfunction, hhead, hexit, body, condition, a, hcond₀, hbranch, hassumption, hclosed,
    hway⟩ := hout sm hsm
  have hjump := List.find?_some hcond₀.branch
  refine ⟨hfunction, hhead, hexit, body, condition, a, hcond₀, hbranch, hassumption, ?_⟩
  cases hp.dealt_of_run hclean hrun with
  | skipped =>
    refine ⟨hclosed, hway.skipped fun hin ↦ ?_⟩
    -- a loop with a conditional jump in its body is not skipped
    obtain ⟨ids, hids⟩ := exists_range_iff_isLoop.2 hm
    have hnone := hp.loopCondition_eq_none
      (Edit.loopCondition_of_run_skipped (Edit.run_of_run_atLoop hrun))
    rw [loopCondition_eq hids, Except.ok.injEq, Option.map_eq_none_iff,
      List.find?_eq_none] at hnone
    exact hnone _ ((inBody_iff_mem hids hcond₀.branch_mem_order).1 hin) hjump
  | @converted ids _ _ _ _ _ _ _ hcond hconv =>
    have hbody := (hp.find?_of_hasCondition hcond).1
    have hne : l.exit ≠ m.exit := fun e ↦ hlm.exit_notMem hl hbody (by simp [e])
    exact ⟨(hclosed.converted hp.extension hm hne hconv).2.2,
      hway.converted hclosed hcond₀ hclean hl hp hlm hafter hcond hconv⟩

end

/-- Where the loops of a function are pairwise apart, every loop that was converted has a way out in
the end. -/
theorem convertFunction_departed {discovery : Discovery} {vs : List Verdict} (hclean : p.Clean)
    (hapart : (discovery name p).Pairwise p.Apart) (hafter : s.config.assumesAfter = true)
    (hrun : (convertFunction s discovery name).run p = .ok vs q) :
    ∀ v ∈ vs, ∃ l ∈ discovery name p,
      Departed s name p l (p.turns (discovery name p)) v q := by
  obtain ⟨pairs, hfst, hsnd, -, hout⟩ := invariant_of_run_convertFunction
    (I := fun done q ↦ ∀ e ∈ done, Departed s name p e.1 (done.map Prod.fst) e.2 q)
    hclean hapart hrun (fun e he ↦ absurd he List.not_mem_nil)
    (fun done m todo r w t hall hdone hpending hstep hd hout e he ↦ by
      have hm := hpending.isLoop m List.mem_cons_self
      rw [List.map_append]
      rcases List.mem_append.1 he with he | he
      · obtain ⟨hl, hlm⟩ := hdone e.1 (List.mem_map_of_mem he)
        exact (hout e he).later hl hpending hclean hlm hafter hstep
      · cases List.mem_singleton.1 he
        refine .of_dealt hpending (fun l hl ↦ ?_) hafter hd
        rcases List.mem_append.1 hl with hl | hl
        · exact (hdone l hl).2.not_within (hdone l hl).1 hm
        · cases List.mem_singleton.1 hl
          exact fun hwithin ↦ Nat.lt_irrefl _ hwithin.2)
  rw [hfst] at hout
  exact exists_mem_of_mem_verdicts hfst hsnd hout

/-! ### The run over all functions -/

namespace Renumbered

theorem mem_jumpSources_iff (h : Renumbered p q) : c ∈ q.jumpSources a ↔ c ∈ p.jumpSources a := by
  obtain ⟨location, target, hfetch⟩ := h.exists_fetch_eq c
  rw [Program.mem_jumpSources_iff, Program.mem_jumpSources_iff, hfetch]

theorem assumes (h : Renumbered p q) (ha : p.Assumes a e) : q.Assumes a e := by
  obtain ⟨location, target, hfetch⟩ := h.exists_fetch_eq a
  constructor <;> rw [hfetch]
  exacts [ha.isAssume, ha.isScaffold, ha.guard_eq]

end Renumbered

/-- Only the branch jumps to the assumption exactly if it lies in the body of no loop inside. -/
theorem WayOut.forall_mem_jumpSources_iff {loops : List Loop} (hw : WayOut p₀ l loops b a p)
    (hb : b ∈ p₀.order) : (∀ c, c ∈ p.jumpSources a ↔ c = b) ↔
      ∀ m ∈ loops, p₀.Within m l → ¬ p₀.InBody m b := by
  cases hw with
  | own hnone honly => exact iff_of_true honly hnone
  | shared hm hwithin hin hsource hout =>
    exact iff_of_false (fun honly ↦ hout ((honly _).1 hsource ▸ hb))
      fun hnone ↦ hnone _ hm hwithin hin

/-- After a run that succeeds with all assumptions written, over functions without scaffolding, with
live targets, and with loops that are pairwise apart, the assumption that was written for a
converted loop stands right behind its exit. The first conditional jump of the loop is the only jump
to it exactly if the jump lies in the body of no loop inside. -/
theorem Functions.run_jumpSources {fs : Functions} {discovery : Discovery} {report : Report}
    (hafter : s.config.assumesAfter = true)
    (hclean : ∀ name f, fs.get? name = some f → f.bodyAvailable = true → f.body.Clean)
    (hapart : ∀ name f, fs.get? name = some f → f.bodyAvailable = true →
      (discovery name f.body).Pairwise f.body.Apart)
    (hrun : (fs.run s discovery).progress.outcome = .ok report) :
    ∀ sm ∈ report.converted, ∃ f g l condition a,
      fs.get? sm.function = some f ∧
      (fs.run s discovery).functions.get? sm.function = some g ∧
      l ∈ discovery sm.function f.body ∧ sm.head = l.head ∧ sm.exit = l.exit ∧
      f.body.loopCondition l.head l.exit = .ok (some condition) ∧
      sm.branch = some condition.branch ∧ sm.assumption = some a ∧
      g.body.prev? a = some sm.exit ∧
      g.body.Assumes a (s.builder.negate condition.guard.normalized) ∧
      (g.body.jumpSources a = [condition.branch] ↔
        ∀ m ∈ discovery sm.function f.body, f.body.Within m l →
          ¬ f.body.InBody m condition.branch) := by
  intro sm hsm
  obtain ⟨f, g, vs, q, hf, havailable, hg, hconvert, hverdict, hnumbered⟩ :=
    exists_of_mem_converted hrun hsm
  obtain ⟨l, hl, hout⟩ := convertFunction_departed (hclean _ f hf havailable)
    (hapart _ f hf havailable) hafter hconvert _ hverdict
  obtain ⟨-, hhead, hexit, body, condition, a, hcond, hbranch, hassumption, hclosed, hway⟩ :=
    hout sm rfl
  refine ⟨f, g, l, condition, a, hf, hg, hl, hhead, hexit, loopCondition_eq_some hcond, hbranch,
    hassumption, ?_, hnumbered.assumes hclosed.assumes, ?_⟩
  · rw [hexit, prev?_eq_some_iff, hnumbered.next?_eq]
    exact hclosed.next
  · simp only [jumpSources_eq_singleton_iff, hnumbered.mem_jumpSources_iff,
      hway.forall_mem_jumpSources_iff hcond.branch_mem_order, (f.body.turns_perm _).mem_iff]

theorem Functions.run_jumpSources_nestedLoops :
    let fs := single "main" nestedLoops
    let d : Discovery := fun _ _ ↦ nestedLoops.loops
    let r := fs.run { config := .full } d
    ∃ report, r.progress.outcome = .ok report ∧
      report.converted.map LoopSummary.head = [⟨0⟩, ⟨1⟩] ∧
      ∀ sm ∈ report.converted, ∃ f g l condition a,
        fs.get? sm.function = some f ∧ r.functions.get? sm.function = some g ∧
        l ∈ d sm.function f.body ∧ sm.head = l.head ∧ sm.exit = l.exit ∧
        f.body.loopCondition l.head l.exit = .ok (some condition) ∧
        sm.branch = some condition.branch ∧ sm.assumption = some a ∧
        g.body.prev? a = some sm.exit ∧
        g.body.Assumes a (GuardBuilder.simplifying.negate condition.guard.normalized) ∧
        (g.body.jumpSources a = [condition.branch] ↔
          ∀ m ∈ d sm.function f.body, f.body.Within m l →
            ¬ f.body.InBody m condition.branch) := by
  intro fs d r
  have hheads : r.progress.outcome.toOption.map (·.converted.map LoopSummary.head) =
      some [⟨0⟩, ⟨1⟩] := by decide +kernel
  cases hrun : r.progress.outcome with
  | error fault =>
    rw [hrun] at hheads
    cases hheads
  | ok report =>
    rw [hrun] at hheads
    refine ⟨report, rfl, Option.some.inj hheads, run_jumpSources rfl (fun name f hf _ ↦ ?_)
      (fun name f hf _ ↦ ?_) hrun⟩
    · rw [(eq_of_get?_single hf).2]
      decide
    · rw [(eq_of_get?_single hf).2]
      decide

/-- A loop with another one inside that starts behind an assignment, both left by the same jump. -/
def sharedBranch : Program :=
  .ofList [.assign (.var ⟨"found", .bool⟩) (.bool false), .goto ⟨5⟩ (.not (.var ⟨"again", .bool⟩)),
    .assert (.var ⟨"safe", .bool⟩), .goto ⟨1⟩ (.bool true), .goto ⟨0⟩ (.bool true), .endFunction]

/-- The loops of `sharedBranch`, the inner one first. -/
def sharedBranch.loops : List Loop :=
  [⟨⟨1⟩, ⟨3⟩, []⟩, ⟨⟨0⟩, ⟨4⟩, []⟩]

/-- The only conditional jump is the first one of both loops. After the run the assumption behind
the outer loop is jumped to by the copy of that jump that was made for the inner one only. -/
theorem Functions.run_jumpSources_sharedBranch :
    let r := (single "main" sharedBranch).run { config := .full } fun _ _ ↦ sharedBranch.loops
    sharedBranch.Clean ∧ sharedBranch.Nest sharedBranch.loops ∧
    ∃ report g sm a c, r.progress.outcome = .ok report ∧ r.functions.get? "main" = some g ∧
      sm ∈ report.converted ∧ sm.function = "main" ∧ sm.head = ⟨0⟩ ∧ sm.branch = some ⟨1⟩ ∧
      sm.assumption = some a ∧ a ∉ (g.body.fetch ⟨1⟩).targets ∧
      c ∉ sharedBranch.order ∧ g.body.jumpSources a = [c] := by
  intro r
  have hshared : (r.progress.outcome.toOption.any fun report ↦
      (r.functions.get? "main").any fun g ↦ decide (∃ sm ∈ report.converted,
        sm.function = "main" ∧ sm.head = ⟨0⟩ ∧ sm.branch = some ⟨1⟩ ∧ sm.assumption = some ⟨12⟩ ∧
        ⟨12⟩ ∉ (g.body.fetch ⟨1⟩).targets ∧ ⟨15⟩ ∉ sharedBranch.order ∧
        g.body.jumpSources ⟨12⟩ = [⟨15⟩])) = true := by decide +kernel
  obtain ⟨report, hreport, hshared⟩ := (Option.any_eq_true _ _).1 hshared
  obtain ⟨g, hg, hshared⟩ := (Option.any_eq_true _ _).1 hshared
  obtain ⟨sm, hsm, h⟩ := of_decide_eq_true hshared
  exact ⟨by decide, by decide, report, g, sm, ⟨12⟩, ⟨15⟩, eq_ok_of_toOption hreport, hg, hsm, h⟩

end LoopInduction
