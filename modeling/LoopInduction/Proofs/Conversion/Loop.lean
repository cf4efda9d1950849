import LoopInduction.Proofs.Conversion.Passes

/-!
# When one loop is converted

A loop that scaffolding of no other loop has been written into is *ready*. Three conditions decide
whether the conversion of a ready loop goes through (`Program.Convertible`): its exit is a jump; if
its body is to be copied, the exit does not end the function; and if it is to be left through an
assumption, its condition leaves it. Then the conversion is a chain of passes, described by
`Converted` (`Edit.run_convertWith`); otherwise it stops with a fault
(`Edit.run_convertWith_error`).

## Main definitions

* `Program.Ready`, `Program.Convertible` : what a conversion needs.
* `Converted` : the chain of passes that a conversion is.
-/

namespace LoopInduction

variable {p q : Program} {s : Setup} {l : Loop} {condition : LoopCondition} {body : List InstrId}
  {name : String}

/-! ### The condition -/

namespace Program

theorem loopCondition_eq (hrange : p.range l.head l.exit = .ok body) :
    p.loopCondition l.head l.exit = .ok
      ((body.find? fun id ↦ (p.fetch id).isConditionalJump).map (p.conditionAt body l.exit)) := by
  rw [loopCondition, hrange]
  rfl

/-- The condition of the loop is that of its first conditional jump. -/
structure HasCondition (p : Program) (l : Loop) (body : List InstrId)
    (condition : LoopCondition) : Prop where
  range : p.range l.head l.exit = .ok body
  branch : body.find? (fun id ↦ (p.fetch id).isConditionalJump) = some condition.branch
  eq : condition = p.conditionAt body l.exit condition.branch

theorem loopCondition_eq_some (h : p.HasCondition l body condition) :
    p.loopCondition l.head l.exit = .ok (some condition) := by
  rw [loopCondition_eq h.range, h.branch, Option.map_some, ← h.eq]

/-- A condition that is found is the condition of the loop. -/
theorem exists_hasCondition (h : p.loopCondition l.head l.exit = .ok (some condition)) :
    ∃ body, p.HasCondition l body condition := by
  cases hrange : p.range l.head l.exit with
  | error e =>
    rw [loopCondition, hrange] at h
    cases h
  | ok body =>
    rw [loopCondition_eq hrange, Except.ok.injEq, Option.map_eq_some_iff] at h
    obtain ⟨branch, hbranch, rfl⟩ := h
    exact ⟨body, hrange, hbranch, rfl⟩

theorem hasCondition_conditionAt {branch : InstrId} (hrange : p.range l.head l.exit = .ok body)
    (hbranch : body.find? (fun id ↦ (p.fetch id).isConditionalJump) = some branch) :
    p.HasCondition l body (p.conditionAt body l.exit branch) :=
  ⟨hrange, hbranch, rfl⟩

namespace HasCondition

variable (h : p.HasCondition l body condition)

include h

theorem branch_mem : condition.branch ∈ body :=
  List.mem_of_find?_eq_some h.branch

theorem branch_mem_order : condition.branch ∈ p.order :=
  ((mem_range_iff h.range).1 h.branch_mem).1

theorem branch_ne_exit : condition.branch ≠ l.exit := fun e ↦
  notMem_of_range h.range (e ▸ h.branch_mem)

/-- Nothing in the body in front of the branch is a conditional jump. -/
theorem position_branch_le {u : InstrId} (hu : u ∈ body)
    (hjump : (p.fetch u).isConditionalJump = true) :
    p.position condition.branch ≤ p.position u := by
  obtain ⟨-, front, back, hbody, hfront⟩ := List.find?_eq_some_iff_append.1 h.branch
  obtain ⟨k, hk⟩ := exists_position_eq (isInfix_of_range h.range)
  rw [hk _ (List.mem_append_left _ h.branch_mem), hk _ (List.mem_append_left _ hu), hbody,
    List.append_assoc]
  have hnot : ∀ v ∈ front, v ≠ condition.branch ∧ v ≠ u := by
    intro v hv
    have hfirst := hfront v hv
    refine ⟨fun e ↦ ?_, fun e ↦ ?_⟩
    · rw [e, List.find?_some h.branch] at hfirst
      cases hfirst
    · rw [e, hjump] at hfirst
      cases hfirst
  rw [List.idxOf_append_of_notMem fun hmem ↦ (hnot _ hmem).1 rfl,
    List.idxOf_append_of_notMem fun hmem ↦ (hnot _ hmem).2 rfl, List.cons_append,
    List.idxOf_cons_self]
  omega

theorem guard_eq : condition.guard = (p.fetch condition.branch).guard := by
  rw [h.eq]
  rfl

theorem exitTarget_eq : condition.exitTarget =
    (p.fetch condition.branch).targets.find? fun t ↦ t ≠ l.exit ∧ t ∉ body := by
  rw [h.eq]
  rfl

theorem mem_targets_of_exitTarget {t : InstrId} (ht : condition.exitTarget = some t) :
    t ∈ (p.fetch condition.branch).targets ∧ t ∉ body ++ [l.exit] := by
  rw [h.exitTarget_eq] at ht
  have hout := List.find?_some ht
  simp only [decide_eq_true_eq] at hout
  exact ⟨List.mem_of_find?_eq_some ht, by simp [hout.1, hout.2]⟩

/-- The condition leaves the loop if its jump has a target outside of it. -/
theorem exitTarget_ne_none_iff : condition.exitTarget ≠ none ↔
    ∃ t ∈ (p.fetch condition.branch).targets, t ∉ body ++ [l.exit] := by
  rw [h.exitTarget_eq, ne_eq, List.find?_eq_none]
  simp only [decide_eq_true_eq, not_forall, not_not, List.mem_append, List.mem_singleton, not_or,
    exists_prop]
  exact exists_congr fun t ↦ and_congr_right fun _ ↦ and_comm

end HasCondition

/-! ### What a conversion needs -/

/-- No scaffolding of other loops stands where the conversion looks. -/
structure Ready (p : Program) (s : Setup) (l : Loop) (body : List InstrId) : Prop where
  live : p.TargetsLive
  head : (p.fetch l.head).isScaffold = false
  body : s.config.duplicateBody = true → ∀ u ∈ body, (p.fetch u).isScaffold = false

/-- The passes that are switched on find what they need. -/
structure Convertible (p : Program) (s : Setup) (l : Loop) (condition : LoopCondition) :
    Prop where
  exit_isGoto : (p.fetch l.exit).isGoto = true
  exit_not_last : s.config.duplicateBody = true → p.last? ≠ some l.exit
  exitTarget : s.config.assumesAfter = true → condition.exitTarget ≠ none

end Program

/-! ### The chain of passes -/

/-- The loop was unwound, if that is switched on. -/
def UnwoundIf (s : Setup) (l : Loop) (body : List InstrId) :
    Option IterationPoints → Program → Program → Prop
  | none, p, q => s.config.duplicateBody = false ∧ q = p
  | some pts, p, q => s.config.duplicateBody = true ∧ ∃ behind copy jump,
      Unwound p q body l.exit behind s.builder copy jump pts.firstExit ∧
        pts.copyExit = ((p.kept body).map copy).getLast?

/-- The loop is left through an assumption, if that is switched on. -/
def ForwardedIf (s : Setup) (l : Loop) (condition : LoopCondition) :
    Option InstrId → Program → Program → Prop
  | none, p, q => s.config.assumesAfter = false ∧ q = p
  | some a, p, q => s.config.assumesAfter = true ∧ a = p.fresh ∧ ∃ target,
      condition.exitTarget = some target ∧ Forwarded s l condition target p q

/-- The assertions became assumptions, if that is switched on. -/
def AssumedIf (s : Setup) (l : Loop) (p q : Program) : Prop :=
  if s.config.convertAsserts then ∃ ids, p.range l.head l.exit = .ok ids ∧ Assumed ids p q
  else q = p

/-- The passes that a conversion consists of, with the programs between them. -/
structure Converted (s : Setup) (l : Loop) (body : List InstrId) (condition : LoopCondition)
    (points : Option IterationPoints) (assumption : Option InstrId) (p p₁ p₂ p₃ q : Program) :
    Prop where
  scaffolded : Scaffolded s l condition.guard body p p₁
  unwound : UnwoundIf s l body points p₁ p₂
  forwarded : ForwardedIf s l condition assumption p₂ p₃
  assumed : AssumedIf s l p₃ q

variable {points : Option IterationPoints} {assumption : Option InstrId} {id : InstrId}
  {ys : List InstrId}

namespace UnwoundIf

theorem eq_or_exists (h : UnwoundIf s l body points p q) :
    q = p ∨ ∃ behind copy jump marker,
      Unwound p q body l.exit behind s.builder copy jump marker := by
  cases points with
  | none => exact .inl h.2
  | some pts =>
    obtain ⟨-, behind, copy, jump, h, -⟩ := h
    exact .inr ⟨behind, copy, jump, pts.firstExit, h⟩

theorem eq_of_duplicateBody (h : UnwoundIf s l body points p q)
    (hdup : s.config.duplicateBody = false) : q = p := by
  cases points with
  | none => exact h.2
  | some pts => exact absurd h.1 (by simp [hdup])

theorem fetch_old (h : UnwoundIf s l body points p q) (hid : id ∈ p.order) :
    q.fetch id = p.fetch id := by
  obtain rfl | ⟨_, _, _, _, h⟩ := h.eq_or_exists
  · rfl
  · exact h.fetch_old hid

theorem extension (h : UnwoundIf s l body points p q) : p.Extends q := by
  obtain rfl | ⟨_, _, _, _, h⟩ := h.eq_or_exists
  · exact .refl q
  · exact h.extension

theorem targetsLive (h : UnwoundIf s l body points p q) (hbody : ∀ u ∈ body, u ∈ p.order)
    (hlive : p.TargetsLive) : q.TargetsLive := by
  obtain rfl | ⟨_, _, _, _, h⟩ := h.eq_or_exists
  · exact hlive
  · exact h.targetsLive hbody hlive

theorem last?_eq (h : UnwoundIf s l body points p q) : q.last? = p.last? := by
  obtain rfl | ⟨_, _, _, _, h⟩ := h.eq_or_exists
  · rfl
  · exact h.last?_eq

theorem isInfix (h : UnwoundIf s l body points p q) (hys : ys <:+: p.order)
    (hexit : l.exit ∉ ys) : ys <:+: q.order := by
  obtain rfl | ⟨_, _, _, _, h⟩ := h.eq_or_exists
  · exact hys
  · exact h.isInfix hys hexit

/-- Where the loop is left through an assumption its body was copied, so the exit is not last. -/
theorem next?_exit_ne_none (h : UnwoundIf s l body points p q)
    (hafter : s.config.assumesAfter = true) : q.next? l.exit ≠ none := by
  cases points with
  | none =>
    rw [Config.assumesAfter, h.1, Bool.false_and] at hafter
    cases hafter
  | some pts =>
    obtain ⟨-, _, _, _, h, -⟩ := h
    exact h.next?_exit_ne_none

end UnwoundIf

namespace ForwardedIf

theorem eq_or_exists (h : ForwardedIf s l condition assumption p q) :
    q = p ∨ ∃ target, s.config.assumesAfter = true ∧ condition.exitTarget = some target ∧
      Forwarded s l condition target p q := by
  cases assumption with
  | none => exact .inl h.2
  | some a =>
    obtain ⟨hafter, -, target, htarget, h⟩ := h
    exact .inr ⟨target, hafter, htarget, h⟩

theorem eq_of_assumesAfter (h : ForwardedIf s l condition assumption p q)
    (hafter : s.config.assumesAfter = false) : q = p := by
  cases assumption with
  | none => exact h.2
  | some a => exact absurd h.1 (by simp [hafter])

theorem extension (h : ForwardedIf s l condition assumption p q) : p.Extends q := by
  obtain rfl | ⟨_, -, -, h⟩ := h.eq_or_exists
  · exact .refl q
  · exact h.extension

/-- A stretch that goes on behind the exit does not stay in one piece. -/
theorem isInfix (h : ForwardedIf s l condition assumption p q) (hexit : l.exit ∈ p.order)
    (hys : ys <:+: p.order) (hlast : l.exit ∉ ys.dropLast) : ys <:+: q.order := by
  obtain rfl | ⟨_, -, -, h⟩ := h.eq_or_exists
  · exact hys
  · exact h.splice.isInfix_of_notMem_dropLast hys hexit hlast

theorem targetsLive (h : ForwardedIf s l condition assumption p q) (hhead : l.head ∈ p.order)
    (hlive : p.TargetsLive) : q.TargetsLive := by
  obtain rfl | ⟨_, -, -, h⟩ := h.eq_or_exists
  · exact hlive
  · exact h.targetsLive hhead hlive

end ForwardedIf

namespace AssumedIf

theorem eq_or_exists (h : AssumedIf s l p q) : q = p ∨ ∃ ids, Assumed ids p q := by
  rw [AssumedIf] at h
  split at h
  · obtain ⟨ids, -, h⟩ := h
    exact .inr ⟨ids, h⟩
  · exact .inl h

theorem extension (h : AssumedIf s l p q) : p.Extends q := by
  obtain rfl | ⟨_, h⟩ := h.eq_or_exists
  · exact .refl q
  · exact h.extension

theorem targetsLive (h : AssumedIf s l p q) (hlive : p.TargetsLive) : q.TargetsLive := by
  obtain rfl | ⟨_, h⟩ := h.eq_or_exists
  · exact hlive
  · exact h.targetsLive hlive

theorem order_eq (h : AssumedIf s l p q) : q.order = p.order := by
  obtain rfl | ⟨_, h⟩ := h.eq_or_exists
  · rfl
  · exact h.order

theorem last?_eq (h : AssumedIf s l p q) : q.last? = p.last? := by
  rw [Program.last?, Program.last?, h.order_eq]

end AssumedIf

namespace Converted

variable {p₁ p₂ p₃ : Program}

/-- A conversion keeps what was there. -/
theorem extension (h : Converted s l body condition points assumption p p₁ p₂ p₃ q) :
    p.Extends q :=
  h.scaffolded.extension.trans (h.unwound.extension.trans
    (h.forwarded.extension.trans h.assumed.extension))

theorem targetsLive (h : Converted s l body condition points assumption p p₁ p₂ p₃ q)
    (hrange : p.range l.head l.exit = .ok body) (hlive : p.TargetsLive) : q.TargetsLive := by
  obtain ⟨hhead, -, -⟩ := Program.range_eq_ok hrange
  have h₁ := h.scaffolded.targetsLive hhead hlive
  have h₂ := h.unwound.targetsLive (fun u hu ↦ h.scaffolded.extension.mem
    ((Program.mem_range_iff hrange).1 hu).1) h₁
  have h₃ := h.forwarded.targetsLive
    (h.unwound.extension.mem (h.scaffolded.extension.mem hhead)) h₂
  exact h.assumed.targetsLive h₃

theorem last?_eq (h : Converted s l body condition points assumption p p₁ p₂ p₃ q)
    (hrange : p.range l.head l.exit = .ok body) : q.last? = p.last? := by
  obtain ⟨hhead, hexit, -⟩ := Program.range_eq_ok hrange
  have h₃ : p₃.last? = p₂.last? := by
    obtain heq | ⟨_, hafter, -, hforwarded⟩ := h.forwarded.eq_or_exists
    · rw [heq]
    · exact hforwarded.last?_eq (h.unwound.extension.mem (h.scaffolded.extension.mem hexit))
        (h.unwound.next?_exit_ne_none hafter)
  rw [h.assumed.last?_eq, h₃, h.unwound.last?_eq, h.scaffolded.last?_eq hhead]

/-- A stretch stays in one piece if the exit is not in it, and the head at most as its first. -/
theorem isInfix (h : Converted s l body condition points assumption p p₁ p₂ p₃ q)
    (hexit : l.exit ∈ p.order) (hys : ys <:+: p.order) (hhead : l.head ∉ ys.tail)
    (hnot : l.exit ∉ ys) : ys <:+: p₁.order ∧ ys <:+: p₂.order ∧ ys <:+: q.order := by
  have h₁ : ys <:+: p₁.order := h.scaffolded.splice.isInfix_of_notMem_tail hys hhead
  have h₂ := h.unwound.isInfix h₁ hnot
  have hexit₂ := h.unwound.extension.mem (h.scaffolded.extension.mem hexit)
  have h₃ := h.forwarded.isInfix hexit₂ h₂ fun hmem ↦ hnot (List.dropLast_subset _ hmem)
  exact ⟨h₁, h₂, by rwa [h.assumed.order_eq]⟩

end Converted

namespace Edit

/-- The pass that unwinds, as the conversion runs it. -/
def unwindIf (s : Setup) (l : Loop) : Edit (Option IterationPoints) :=
  if s.config.duplicateBody then some <$> duplicateBody l.head l.exit s.builder else pure none

/-- The pass that leaves the loop through an assumption, as the conversion runs it. -/
def forwardIf (s : Setup) (l : Loop) (condition : LoopCondition) : Edit (Option InstrId) :=
  if s.config.assumesAfter then some <$> assumeForward s l condition else pure none

/-- The pass over the assertions, as the conversion runs it. -/
def assumeIf (s : Setup) (l : Loop) : Edit Unit := do
  if s.config.convertAsserts then discard (assumeAssertions l.head l.exit)

theorem convertWith_eq : convertWith s name l condition = (do
    scaffold s l condition
    let points ← unwindIf s l
    let assumption ← forwardIf s l condition
    assumeIf s l
    ask (·.validateTargets)
    return {
      function := name, head := l.head, exit := l.exit, branch := some condition.branch,
      points := points, assumption := assumption }) := by
  rw [convertWith, unwindIf, forwardIf, assumeIf]
  cases s.config.duplicateBody <;> cases s.config.assumesAfter <;>
    cases s.config.convertAsserts <;> rfl

theorem run_unwindIf (hlive : p.TargetsLive) (hrange : p.range l.head l.exit = .ok body)
    (hne : body ≠ [])
    (hbody : s.config.duplicateBody = true → ∀ u ∈ body, (p.fetch u).isScaffold = false)
    (hlast : s.config.duplicateBody = true → p.last? ≠ some l.exit) :
    ∃ points q, (unwindIf s l).run p = .ok points q ∧ UnwoundIf s l body points p q := by
  rw [unwindIf]
  cases hdup : s.config.duplicateBody with
  | false => exact ⟨none, p, rfl, hdup, rfl⟩
  | true =>
    obtain ⟨behind, hbehind⟩ : ∃ behind, p.next? l.exit = some behind :=
      Option.ne_none_iff_exists'.1 fun h ↦ hlast hdup
        ((Program.next?_eq_none_iff_last? (Program.range_eq_ok hrange).2.1).1 h)
    obtain ⟨copy, jump, pts, q, hrun, h, hcopy⟩ := run_duplicateBody s.builder hlive hrange hne
      hbehind fun u _ t _ ht ↦ Program.mem_copied.2 ⟨ht, hbody hdup t ht⟩
    refine ⟨some pts, q, ?_, hdup, behind, copy, jump, h, hcopy⟩
    rw [if_pos rfl, run_map, hrun]

theorem run_unwindIf_error (hrange : p.range l.head l.exit = .ok body) (hne : body ≠ [])
    (hdup : s.config.duplicateBody = true) (hlast : p.last? = some l.exit) :
    ∃ e q, (unwindIf s l).run p = .error e q := by
  have hnext : p.next? l.exit = none :=
    (Program.next?_eq_none_iff_last? (Program.range_eq_ok hrange).2.1).2 hlast
  have hbehind : p.behindExit l.head l.exit = .error (.exitIsLast l.head l.exit) := by
    rw [Program.behindExit, hnext]
  rw [unwindIf, if_pos hdup, run_map, duplicateBody, EStateM.run_bind,
    run_ask_ok (Program.bodyToCopy_eq_ok hrange hne)]
  simp only
  rw [EStateM.run_bind, run_ask_error hbehind]
  exact ⟨_, _, rfl⟩

theorem run_assumeIf (hrange : ∃ ids, p.range l.head l.exit = .ok ids) :
    ∃ q, (assumeIf s l).run p = .ok () q ∧ AssumedIf s l p q := by
  rw [assumeIf]
  cases hasserts : s.config.convertAsserts with
  | false =>
    refine ⟨p, rfl, ?_⟩
    rw [AssumedIf, hasserts]
    rfl
  | true =>
    obtain ⟨ids, hids⟩ := hrange
    obtain ⟨n, q, hrun, h⟩ := run_assumeAssertions hids
    refine ⟨q, ?_, ?_⟩
    · rw [if_pos rfl, run_discard, hrun]
    · rw [AssumedIf, hasserts]
      exact ⟨ids, hids, h⟩

theorem run_forwardIf (hexit : l.exit ∈ p.order) (hgoto : (p.fetch l.exit).isGoto = true)
    (hbranch : condition.branch ∈ p.order) (hne : condition.branch ≠ l.exit)
    (hmem : ∀ t, condition.exitTarget = some t → t ∈ (p.fetch condition.branch).targets)
    (htarget : s.config.assumesAfter = true → condition.exitTarget ≠ none) :
    ∃ assumption q, (forwardIf s l condition).run p = .ok assumption q ∧
      ForwardedIf s l condition assumption p q := by
  rw [forwardIf]
  cases hafter : s.config.assumesAfter with
  | false => exact ⟨none, p, rfl, hafter, rfl⟩
  | true =>
    obtain ⟨target, ht⟩ := Option.ne_none_iff_exists'.1 (htarget hafter)
    obtain ⟨q, hrun, h⟩ := run_assumeForward s hexit hgoto hbranch hne ht (hmem target ht)
    refine ⟨some p.fresh, q, ?_, hafter, rfl, target, ht, h⟩
    rw [if_pos rfl, run_map, hrun]

/-- What scaffolding leaves for the passes behind it. -/
private theorem ready_of_scaffolded {p₁ : Program} (hcond : p.HasCondition l body condition)
    (hready : p.Ready s l body) (h₁ : Scaffolded s l condition.guard body p p₁) :
    p₁.TargetsLive ∧ p₁.range l.head l.exit = .ok body ∧
      (∀ u ∈ body, p₁.fetch u = p.fetch u) := by
  obtain ⟨hhead, -, -⟩ := Program.range_eq_ok hcond.range
  refine ⟨h₁.targetsLive hhead hready.live, h₁.range hcond.range, fun u hu ↦ ?_⟩
  exact h₁.fetch_of_mem_body hu ((Program.mem_range_iff hcond.range).1 hu).1 fun e ↦
    Program.notMem_of_range hcond.range (e ▸ hu)

/-- A ready loop whose passes find what they need is converted. -/
theorem run_convertWith (name : String) (hcond : p.HasCondition l body condition)
    (hready : p.Ready s l body) (hconv : p.Convertible s l condition) :
    ∃ points assumption p₁ p₂ p₃ q, (convertWith s name l condition).run p = .ok
        { function := name, head := l.head, exit := l.exit, branch := some condition.branch,
          points := points, assumption := assumption } q ∧
      Converted s l body condition points assumption p p₁ p₂ p₃ q := by
  obtain ⟨hhead, hexit, -⟩ := Program.range_eq_ok hcond.range
  have hbranch := hcond.branch_mem_order
  obtain ⟨p₁, hrun₁, h₁⟩ := run_scaffold s condition hcond.range hready.head hconv.exit_isGoto
  obtain ⟨hlive₁, hrange₁, hbody₁⟩ := ready_of_scaffolded hcond hready h₁
  obtain ⟨points, p₂, hrun₂, h₂⟩ := run_unwindIf hlive₁ hrange₁
    (List.ne_nil_of_mem hcond.branch_mem)
    (fun hdup u hu ↦ (hbody₁ u hu).symm ▸ hready.body hdup u hu)
    (fun hdup ↦ (h₁.last?_eq hhead).symm ▸ hconv.exit_not_last hdup)
  have hexit₂ : p₂.fetch l.exit = p₁.fetch l.exit := h₂.fetch_old (h₁.extension.mem hexit)
  have hbranch₂ : p₂.fetch condition.branch = p.fetch condition.branch := by
    rw [h₂.fetch_old (h₁.extension.mem hbranch), hbody₁ _ hcond.branch_mem]
  have hext₂ := h₁.extension.trans h₂.extension
  obtain ⟨assumption, p₃, hrun₃, h₃⟩ := run_forwardIf (hext₂.mem hexit)
    (by rw [(hext₂.retained _ hexit).isGoto_eq, hconv.exit_isGoto])
    (hext₂.mem hbranch) hcond.branch_ne_exit
    (fun t ht ↦ hbranch₂ ▸ (hcond.mem_targets_of_exitTarget ht).1) hconv.exitTarget
  have hext₃ := hext₂.trans h₃.extension
  obtain ⟨q, hrun₄, h₄⟩ := run_assumeIf (s := s) (l := l) (p := p₃) (Program.exists_range_iff.2
    ⟨hext₃.mem hhead, hext₃.mem hexit, (hext₃.position_le_iff hhead hexit).2
      (Program.range_eq_ok hcond.range).2.2⟩)
  have h : Converted s l body condition points assumption p p₁ p₂ p₃ q := ⟨h₁, h₂, h₃, h₄⟩
  have hlive : q.validateTargets = .ok () :=
    Program.targetsLive_iff.1 (h.targetsLive hcond.range hready.live)
  refine ⟨points, assumption, p₁, p₂, p₃, q, ?_, h⟩
  rw [convertWith_eq]
  simp only [EStateM.run_bind, hrun₁, hrun₂, hrun₃, hrun₄, run_ask_ok hlive]
  rfl

/-- Where a loop is converted each pass succeeds, and the summary says what they answer. -/
theorem exists_of_run_convertWith {name : String} {sm : LoopSummary} {q : Program}
    (hrun : (convertWith s name l condition).run p = .ok sm q) :
    ∃ points assumption p₁ p₂ p₃, (scaffold s l condition).run p = .ok () p₁ ∧
      (unwindIf s l).run p₁ = .ok points p₂ ∧ (forwardIf s l condition).run p₂ = .ok assumption p₃ ∧
      (assumeIf s l).run p₃ = .ok () q ∧
      sm = { function := name, head := l.head, exit := l.exit, branch := some condition.branch,
             points := points, assumption := assumption } := by
  rw [convertWith_eq] at hrun
  obtain ⟨_, p₁, hrun₁, hrest₁⟩ := EStateM.exists_of_run_bind hrun
  obtain ⟨points, p₂, hrun₂, hrest₂⟩ := EStateM.exists_of_run_bind hrest₁
  obtain ⟨assumption, p₃, hrun₃, hrest₃⟩ := EStateM.exists_of_run_bind hrest₂
  obtain ⟨_, p₄, hrun₄, hrest₄⟩ := EStateM.exists_of_run_bind hrest₃
  obtain ⟨_, p₅, hrun₅, hrest₅⟩ := EStateM.exists_of_run_bind hrest₄
  obtain ⟨-, rfl⟩ := eq_of_run_ask hrun₅
  cases hrest₅
  exact ⟨points, assumption, p₁, p₂, p₃, hrun₁, hrun₂, hrun₃, hrun₄, rfl⟩

theorem run_convertWith_error (name : String) (hcond : p.HasCondition l body condition)
    (hready : p.Ready s l body) (hconv : ¬ p.Convertible s l condition) :
    ∃ e q, (convertWith s name l condition).run p = .error e q := by
  obtain ⟨hhead, hexit, -⟩ := Program.range_eq_ok hcond.range
  have hne := List.ne_nil_of_mem hcond.branch_mem
  rw [convertWith_eq]
  cases hgoto : (p.fetch l.exit).isGoto with
  | false =>
    obtain ⟨e, q, hrun⟩ := run_scaffold_error s condition hcond.range hready.head hgoto
    exact ⟨e, q, by rw [EStateM.run_bind, hrun]⟩
  | true =>
    obtain ⟨p₁, hrun₁, h₁⟩ := run_scaffold s condition hcond.range hready.head hgoto
    obtain ⟨hlive₁, hrange₁, hbody₁⟩ := ready_of_scaffolded hcond hready h₁
    by_cases hlast : s.config.duplicateBody = true ∧ p.last? = some l.exit
    · obtain ⟨e, q, hrun₂⟩ := run_unwindIf_error hrange₁ hne hlast.1
        ((h₁.last?_eq hhead).trans hlast.2)
      exact ⟨e, q, by simp only [EStateM.run_bind, hrun₁, hrun₂]⟩
    · obtain ⟨points, p₂, hrun₂, h₂⟩ := run_unwindIf (s := s) hlive₁ hrange₁ hne
        (fun hdup u hu ↦ (hbody₁ u hu).symm ▸ hready.body hdup u hu)
        (fun hdup ↦ (h₁.last?_eq hhead).symm ▸ fun hl ↦ hlast ⟨hdup, hl⟩)
      -- only the condition is left that may not be met
      have hafter : s.config.assumesAfter = true ∧ condition.exitTarget = none := by
        by_contra hcon
        exact hconv ⟨hgoto, fun hdup hl ↦ hlast ⟨hdup, hl⟩, fun ha ht ↦ hcon ⟨ha, ht⟩⟩
      have hext₂ := h₁.extension.trans h₂.extension
      obtain ⟨e, q, hrun₃⟩ := run_assumeForward_error s (hext₂.mem hexit)
        (by rw [(hext₂.retained _ hexit).isGoto_eq, hgoto]) hafter.2
      refine ⟨e, q, ?_⟩
      simp only [EStateM.run_bind, hrun₁, hrun₂, forwardIf, hafter.1, if_true, run_map, hrun₃]

end Edit

end LoopInduction
