import LoopInduction.Loop.Unwinding
import LoopInduction.Proofs.Program.Extension
import LoopInduction.Proofs.Program.Skips
import Mathlib.Data.List.Find

/-!
# What unwinding a loop once leaves

Where `Edit.duplicateBody` succeeds the program that it leaves is known in full
(`Edit.run_duplicateBody`): the copies of the body stand right before the exit, a marker and, if the
exit may fall through, a jump over it stand right behind the exit, and nothing that was there before
changes. This is `Unwound`, which all statements about unwinding start from.

## Main definitions

* `Program.copied`, `Program.kept` : the instructions that are copied, and those whose copy stays.
* `Program.copyTarget` : where the copy of a jump goes.
* `Program.firstCopy` : where control comes to in the copy.
* `Unwound` : a loop was unwound.
-/

namespace LoopInduction

/-- A list whose elements are all accepted is mapped to the list of the answers. -/
theorem Except.mapM_eq_ok {ε α β : Type} {f : α → Except ε β} {g : α → β} {l : List α}
    (h : ∀ a ∈ l, f a = .ok (g a)) : l.mapM f = .ok (l.map g) := by
  induction l with
  | nil => rfl
  | cons a l ih =>
    rw [List.mapM_cons, h a List.mem_cons_self, ih fun b hb ↦ h b (List.mem_cons_of_mem _ hb)]
    rfl

namespace Program

variable {p : Program} {body cs : List InstrId} {t u id : InstrId}

/-! ### Instructions that are copied -/

/-- The instructions of a body that are copied. -/
def copied (p : Program) (body : List InstrId) : List InstrId :=
  body.filter fun id ↦ !(p.fetch id).isScaffold

/-- The instructions of a body whose copy stays. -/
def kept (p : Program) (body : List InstrId) : List InstrId :=
  (p.copied body).filter fun id ↦ !(p.fetch id).isSkip

theorem mem_copied : u ∈ p.copied body ↔ u ∈ body ∧ (p.fetch u).isScaffold = false := by
  simp [copied]

theorem mem_kept : u ∈ p.kept body ↔ u ∈ p.copied body ∧ (p.fetch u).isSkip = false := by
  simp [kept]

/-- Of a body without scaffolding everything is copied. -/
theorem copied_eq_self (h : ∀ u ∈ body, (p.fetch u).isScaffold = false) : p.copied body = body :=
  List.filter_eq_self.2 fun u hu ↦ by simp [h u hu]

theorem copied_nodup (h : body.Nodup) : (p.copied body).Nodup :=
  h.filter _

/-- Where the copy of a jump to `t` goes: to the copy of the first instruction from `t` on whose
copy stays, to the exit if there is none, and to `t` itself if it is not copied. -/
def copyTarget (p : Program) (cs : List InstrId) (exit : InstrId) (copy : InstrId → InstrId)
    (t : InstrId) : InstrId :=
  if t ∈ cs then ((cs.dropWhile (· ≠ t)).find? fun id ↦ !(p.fetch id).isSkip).elim exit copy
  else t

/-- The copy of the first of some instructions whose copy stays, and the exit if there is none. -/
def firstCopy (p : Program) (exit : InstrId) (copy : InstrId → InstrId) (us : List InstrId) :
    InstrId :=
  (us.find? fun id ↦ !(p.fetch id).isSkip).elim exit copy

@[simp] theorem firstCopy_nil {exit : InstrId} {copy : InstrId → InstrId} :
    p.firstCopy exit copy [] = exit := rfl

theorem firstCopy_cons {exit : InstrId} {copy : InstrId → InstrId} {us : List InstrId} :
    p.firstCopy exit copy (u :: us) =
      if (p.fetch u).isSkip then p.firstCopy exit copy us else copy u := by
  rw [firstCopy, firstCopy, List.find?_cons]
  cases (p.fetch u).isSkip <;> rfl

/-- The first of the copies that stay. -/
theorem head?_copies {exit : InstrId} {copy : InstrId → InstrId} (us : List InstrId) :
    ((us.filter fun id ↦ !(p.fetch id).isSkip).map copy).head?.or (some exit) =
      some (p.firstCopy exit copy us) := by
  rw [List.head?_map, List.head?_filter, firstCopy]
  cases us.find? fun id ↦ !(p.fetch id).isSkip <;> rfl

/-- The copy of a jump into the body goes to the first copy from the target on. -/
theorem copyTarget_of_append {exit t : InstrId} {copy : InstrId → InstrId} {us vs : List InstrId}
    (ht : t ∉ us) : p.copyTarget (us ++ t :: vs) exit copy t = p.firstCopy exit copy (t :: vs) := by
  have hdrop : (us ++ t :: vs).dropWhile (· ≠ t) = t :: vs := by
    rw [List.dropWhile_append_of_pos fun u hu ↦ by simpa using fun e : u = t ↦ ht (e ▸ hu)]
    exact List.dropWhile_cons_of_neg (by simp)
  rw [copyTarget, if_pos (by simp), hdrop, firstCopy]

theorem copyTarget_of_notMem {exit : InstrId} {copy : InstrId → InstrId} (h : t ∉ cs) :
    p.copyTarget cs exit copy t = t :=
  if_neg h

/-! ### Resolving the targets -/

/-- Where a target goes in a copy, if it can be resolved. -/
def resolved (cs : List InstrId) (t : InstrId) : CopiedTarget :=
  match cs.idxOf? t with
  | some k => .inner k
  | none => .outer t

theorem copiedTarget_eq_ok {head : InstrId} (hin : t ∈ body → t ∈ cs) (hlive : t ∈ p.order) :
    p.copiedTarget head body cs id t = .ok (resolved cs t) := by
  unfold copiedTarget resolved
  cases h : cs.idxOf? t with
  | some k => rfl
  | none =>
    have ht : t ∉ cs := by simpa using h
    rw [if_neg fun hb ↦ ht (hin hb), if_pos (contains_iff.2 hlive)]

theorem copiesOf_eq_ok {head : InstrId} (hin : ∀ u ∈ cs, ∀ t ∈ (p.fetch u).targets,
      t ∈ body → t ∈ cs) (hlive : ∀ u ∈ cs, ∀ t ∈ (p.fetch u).targets, t ∈ p.order) :
    p.copiesOf head body cs = .ok (cs.map fun u ↦
      ((p.fetch u).duplicate, (p.fetch u).targets.map (resolved cs))) := by
  refine Except.mapM_eq_ok fun u hu ↦ ?_
  rw [Except.mapM_eq_ok fun t ht ↦ copiedTarget_eq_ok (hin u hu t ht) (hlive u hu t ht)]
  rfl

/-- A target that is copied is resolved to its copy, any other to itself. -/
theorem resolve_resolved (copy : InstrId → InstrId) (t : InstrId) :
    CopiedTarget.resolve (cs.map copy) (resolved cs t) =
      if t ∈ cs then copy t else t := by
  unfold resolved
  cases h : cs.idxOf? t with
  | none =>
    have ht : t ∉ cs := by simpa using h
    rw [if_neg ht]
    rfl
  | some k =>
    obtain ⟨hk, htk, -⟩ := List.findIdx?_eq_some_iff_getElem.1 h
    have htk : cs[k] = t := by simpa using htk
    have ht : t ∈ cs := htk ▸ List.getElem_mem hk
    rw [if_pos ht, CopiedTarget.resolve, List.getD_eq_getElem?_getD, List.getElem?_map,
      List.getElem?_eq_getElem hk, htk]
    rfl

/-- Gives instructions the targets that are listed for them. -/
def retargeted (p : Program) (copies : List InstrId) (l : List (InstrId × List CopiedTarget)) :
    Program :=
  l.foldl (fun p e ↦ p.update e.1 ({ · with targets := e.2.map (CopiedTarget.resolve copies) })) p

variable {copies : List InstrId} {l : List (InstrId × List CopiedTarget)}

@[simp] theorem order_retargeted : (p.retargeted copies l).order = p.order := by
  induction l generalizing p with
  | nil => rfl
  | cons e l ih => exact ih

theorem get?_retargeted_of_notMem (h : id ∉ l.map Prod.fst) :
    (p.retargeted copies l).get? id = p.get? id := by
  induction l generalizing p with
  | nil => rfl
  | cons e l ih =>
    rw [List.map_cons, List.mem_cons, not_or] at h
    rw [retargeted, List.foldl_cons]
    exact (ih h.2).trans (by rw [get?_update, if_neg h.1])

theorem get?_retargeted_of_mem {ts : List CopiedTarget} (hnodup : (l.map Prod.fst).Nodup)
    (h : (id, ts) ∈ l) : (p.retargeted copies l).get? id =
      (p.get? id).map ({ · with targets := ts.map (CopiedTarget.resolve copies) }) := by
  induction l generalizing p with
  | nil => cases h
  | cons e l ih =>
    rw [List.map_cons, List.nodup_cons] at hnodup
    rw [retargeted, List.foldl_cons]
    rcases List.mem_cons.1 h with rfl | h
    · exact (get?_retargeted_of_notMem hnodup.1).trans (by rw [get?_update, if_pos rfl])
    · have hne : id ≠ e.1 := fun he ↦ hnodup.1 (he ▸ List.mem_map_of_mem h)
      exact (ih hnodup.2 h).trans (by rw [get?_update, if_neg hne])

end Program

namespace Edit

variable {p : Program}

theorem run_change {id : InstrId} (h : id ∈ p.order) (f : Instruction → Instruction) :
    (change id f).run p = .ok () (p.update id f) := by
  obtain ⟨x, hx⟩ := Program.mem_order_iff_get?.1 h
  rw [change, EStateM.run_bind, run_discard, run_fetch hx]
  rfl

theorem run_retarget (copies : List InstrId) {l : List (InstrId × List CopiedTarget)}
    (h : ∀ e ∈ l, e.1 ∈ p.order) :
    (retarget copies l).run p = .ok () (p.retargeted copies l) := by
  induction l generalizing p with
  | nil => rfl
  | cons e l ih =>
    rw [retarget, EStateM.run_bind, run_change (h e List.mem_cons_self)]
    exact ih fun e' he' ↦ h e' (List.mem_cons_of_mem _ he')

end Edit

/-! ### Removing the skips of a copy -/

namespace Program

variable {p q r : Program} {cs : List InstrId} {copy : InstrId → InstrId} {exit : InstrId}

/-- The copies of some instructions of `p`, skips included, were put in front of the exit. -/
structure HasCopies (p r : Program) (exit : InstrId) (cs : List InstrId)
    (copy : InstrId → InstrId) : Prop where
  order : ∃ pre post, r.order = pre ++ cs.map copy ++ exit :: post
  get?_copy : ∀ u ∈ cs, r.get? (copy u) = some { (p.fetch u).duplicate with
    targets := (p.fetch u).targets.map fun t ↦ if t ∈ cs then copy t else t }

namespace HasCopies

variable (h : HasCopies p r exit cs copy)

include h

theorem copy_inj {u v : InstrId} (hu : u ∈ cs) (hv : v ∈ cs) (huv : copy u = copy v) : u = v := by
  obtain ⟨pre, post, horder⟩ := h.order
  have hnodup : (cs.map copy).Nodup := by
    have := r.order_nodup
    rw [horder, List.append_assoc] at this
    exact (List.nodup_append.1 this).2.1.of_append_left
  exact List.inj_on_of_nodup_map hnodup hu hv huv

theorem exit_notMem : exit ∉ cs.map copy := by
  obtain ⟨pre, post, horder⟩ := h.order
  have := r.order_nodup
  rw [horder, List.append_assoc] at this
  intro hmem
  exact (List.nodup_append.1 (List.nodup_append.1 this).2.1).2.2 exit hmem exit
    List.mem_cons_self rfl

theorem isSkip_fetch_copy {u : InstrId} (hu : u ∈ cs) :
    (r.fetch (copy u)).isSkip = (p.fetch u).isSkip := by
  rw [fetch_eq (h.get?_copy u hu)]
  rfl

theorem accepts_copy {u : InstrId} (hu : u ∈ cs) :
    r.accepts (fun id _ ↦ id ∈ cs.map copy) (copy u) = (p.fetch u).isSkip := by
  rw [accepts, decide_eq_true (List.mem_map_of_mem hu), Bool.and_true, h.isSkip_fetch_copy hu]

theorem accepts_exit : r.accepts (fun id _ ↦ id ∈ cs.map copy) exit = false := by
  rw [accepts, decide_eq_false h.exit_notMem, Bool.and_false]

/-- The first of some copies that stays, or the exit, is what the search for it finds. -/
theorem find?_copies {us : List InstrId} (hus : us ⊆ cs) (post : List InstrId) :
    (us.map copy ++ exit :: post).find? (!r.accepts (fun id _ ↦ id ∈ cs.map copy) ·) =
      some (p.firstCopy exit copy us) := by
  induction us with
  | nil => rw [List.map_nil, List.nil_append, firstCopy_nil,
      List.find?_cons_of_pos (by rw [h.accepts_exit]; rfl)]
  | cons u us ih =>
    obtain ⟨hu, hus⟩ := List.cons_subset.1 hus
    rw [List.map_cons, List.cons_append, List.find?_cons, h.accepts_copy hu, firstCopy_cons, ih hus]
    cases (p.fetch u).isSkip <;> rfl

/-- The copy of a skip is replaced by what comes next in the copy. -/
theorem mem_replaceableSkips_copy {u b : InstrId} (hu : u ∈ cs) :
    (copy u, b) ∈ r.replaceableSkips (fun id _ ↦ id ∈ cs.map copy) ↔
      (p.fetch u).isSkip = true ∧ b = p.copyTarget cs exit copy u := by
  obtain ⟨pre, post, horder⟩ := h.order
  obtain ⟨c₁, c₂, hcs, huc⟩ := List.eq_append_cons_of_mem hu
  have hsplit : r.order = (pre ++ c₁.map copy) ++ copy u :: (c₂.map copy ++ exit :: post) := by
    rw [horder, hcs, List.map_append, List.map_cons]
    simp only [List.append_assoc, List.cons_append]
  have hc₂ : c₂ ⊆ cs := fun v hv ↦ hcs ▸ List.mem_append_right _ (List.mem_cons_of_mem _ hv)
  have htarget : p.copyTarget cs exit copy u = p.firstCopy exit copy (u :: c₂) :=
    (congrArg (p.copyTarget · exit copy u) hcs).trans (copyTarget_of_append huc)
  rw [mem_replaceableSkips_iff hsplit, h.accepts_copy hu, h.find?_copies hc₂, Option.some.injEq,
    htarget, firstCopy_cons]
  refine and_congr_right fun hskip ↦ ?_
  rw [if_pos hskip, eq_comm]

/-- The skips of the copy that are replaced, each by what comes next in the copy. -/
theorem mem_replaceableSkips {a b : InstrId} :
    (a, b) ∈ r.replaceableSkips (fun id _ ↦ id ∈ cs.map copy) ↔
      ∃ u ∈ cs, (p.fetch u).isSkip = true ∧ a = copy u ∧ b = p.copyTarget cs exit copy u := by
  constructor
  · intro hab
    have ha := accept_of_mem_replaceableSkips (List.mem_map_of_mem (f := Prod.fst) hab)
    obtain ⟨u, hu, rfl⟩ := List.mem_map.1 (of_decide_eq_true ha)
    obtain ⟨hskip, hb⟩ := (h.mem_replaceableSkips_copy hu).1 hab
    exact ⟨u, hu, hskip, rfl, hb⟩
  · rintro ⟨u, hu, hskip, rfl, rfl⟩
    exact (h.mem_replaceableSkips_copy hu).2 ⟨hskip, rfl⟩

theorem mem_map_fst_replaceableSkips {a : InstrId} :
    a ∈ (r.replaceableSkips (fun id _ ↦ id ∈ cs.map copy)).map Prod.fst ↔
      ∃ u ∈ cs, (p.fetch u).isSkip = true ∧ a = copy u := by
  rw [List.mem_map]
  constructor
  · rintro ⟨⟨a, b⟩, hab, rfl⟩
    obtain ⟨u, hu, hskip, rfl, -⟩ := h.mem_replaceableSkips.1 hab
    exact ⟨u, hu, hskip, rfl⟩
  · rintro ⟨u, hu, hskip, rfl⟩
    exact ⟨_, h.mem_replaceableSkips.2 ⟨u, hu, hskip, rfl, rfl⟩, rfl⟩

/-- A jump to a copy goes on to the first copy from there on that stays. -/
theorem replacement_eq {t : InstrId} (ht : t ∉ cs.map copy) :
    replacement (r.replaceableSkips (fun id _ ↦ id ∈ cs.map copy))
      (if t ∈ cs then copy t else t) = p.copyTarget cs exit copy t := by
  by_cases htc : t ∈ cs
  · rw [if_pos htc]
    by_cases hskip : (p.fetch t).isSkip = true
    · exact replacement_of_mem replaceableSkips_nodup
        (h.mem_replaceableSkips.2 ⟨t, htc, hskip, rfl, rfl⟩)
    · have hkept : copy t ∉ (r.replaceableSkips fun id _ ↦ id ∈ cs.map copy).map Prod.fst := by
        intro hmem
        obtain ⟨u, hu, huskip, hut⟩ := h.mem_map_fst_replaceableSkips.1 hmem
        exact hskip (h.copy_inj htc hu hut ▸ huskip)
      have hfind : (cs.dropWhile (· ≠ t)).find? (fun id ↦ !(p.fetch id).isSkip) = some t := by
        obtain ⟨c₁, c₂, hcs, htc₁⟩ := List.eq_append_cons_of_mem htc
        rw [hcs, List.dropWhile_append_of_pos fun x hx ↦ by
            simpa using fun e : x = t ↦ htc₁ (e ▸ hx), List.dropWhile_cons_of_neg (by simp),
          List.find?_cons_of_pos (by simpa using hskip)]
      rw [replacement_of_notMem hkept, copyTarget, if_pos htc, hfind]
      rfl
  · rw [if_neg htc, copyTarget_of_notMem htc, replacement_of_notMem]
    intro hmem
    obtain ⟨u, hu, -, rfl⟩ := h.mem_map_fst_replaceableSkips.1 hmem
    exact ht (List.mem_map_of_mem hu)

theorem splice_removeSkipsWhere {k : Nat} (hk : k ≤ q.order.length)
    (hr : r.order = q.order.take k ++ cs.map copy ++ q.order.drop k) :
    Splice q (r.removeSkipsWhere fun id _ ↦ id ∈ cs.map copy).1 k
      ((cs.filter fun u ↦ !(p.fetch u).isSkip).map copy) := by
  have hsplice : Splice q r k (cs.map copy) := ⟨hk, hr⟩
  have hremoved := hsplice.removeSkipsWhere (fun id _ ↦ id ∈ cs.map copy)
    fun a _ ha ↦ of_decide_eq_true ha
  rw [List.filter_map] at hremoved
  convert hremoved using 2
  refine List.filter_congr fun u hu ↦ ?_
  have hiff : copy u ∈ (r.replaceableSkips fun id _ ↦ id ∈ cs.map copy).map Prod.fst ↔
      (p.fetch u).isSkip = true := by
    rw [h.mem_map_fst_replaceableSkips]
    constructor
    · rintro ⟨v, hv, hskip, huv⟩
      rwa [h.copy_inj hu hv huv]
    · intro hskip
      exact ⟨u, hu, hskip, rfl⟩
  rw [Function.comp_apply, decide_not, decide_eq_decide.2 hiff, Bool.decide_coe]

/-- Whatever is no copy and jumps to no copy is left alone. -/
theorem get?_removeSkipsWhere_old {id : InstrId} (hid : id ∉ cs.map copy)
    (ht : ∀ i, r.get? id = some i → ∀ t ∈ i.targets, t ∉ cs.map copy) :
    (r.removeSkipsWhere fun id _ ↦ id ∈ cs.map copy).1.get? id = r.get? id := by
  have hnot : ∀ t, t ∉ cs.map copy →
      t ∉ (r.replaceableSkips fun id _ ↦ id ∈ cs.map copy).map Prod.fst := by
    intro t ht hmem
    obtain ⟨u, hu, -, rfl⟩ := h.mem_map_fst_replaceableSkips.1 hmem
    exact ht (List.mem_map_of_mem hu)
  rw [get?_removeSkipsWhere, if_neg (hnot id hid)]
  cases hi : r.get? id with
  | none => rfl
  | some i =>
    rw [Option.map_some, Instruction.redirectAll_of_notMem fun t htt ↦ hnot t (ht i hi t htt)]

/-- A copy of what is no skip stays. -/
theorem get?_removeSkipsWhere_kept {u : InstrId} (hu : u ∈ cs)
    (hskip : (p.fetch u).isSkip = false) :
    (r.removeSkipsWhere fun id _ ↦ id ∈ cs.map copy).1.get? (copy u) =
      some (({ (p.fetch u).duplicate with
        targets := (p.fetch u).targets.map fun t ↦ if t ∈ cs then copy t else t } :
          Instruction).redirectAll (r.replaceableSkips fun id _ ↦ id ∈ cs.map copy)) := by
  have hkept : copy u ∉ (r.replaceableSkips fun id _ ↦ id ∈ cs.map copy).map Prod.fst := by
    intro hmem
    obtain ⟨v, hv, hvskip, huv⟩ := h.mem_map_fst_replaceableSkips.1 hmem
    rw [h.copy_inj hu hv huv, hvskip] at hskip
    cases hskip
  rw [get?_removeSkipsWhere, if_neg hkept, h.get?_copy u hu, Option.map_some]

/-- A copy that stays is the instruction with its jumps taken to the copy. -/
theorem get?_removeSkipsWhere_copy {u : InstrId} (hu : u ∈ cs)
    (hskip : (p.fetch u).isSkip = false) (ht : ∀ t ∈ (p.fetch u).targets, t ∉ cs.map copy) :
    ∃ ts, (r.removeSkipsWhere fun id _ ↦ id ∈ cs.map copy).1.get? (copy u) =
        some { (p.fetch u).duplicate with targets := ts } ∧
      ∀ t, t ∈ ts ↔ ∃ v ∈ (p.fetch u).targets, p.copyTarget cs exit copy v = t := by
  generalize hi : ({ (p.fetch u).duplicate with
    targets := (p.fetch u).targets.map fun t ↦ if t ∈ cs then copy t else t } : Instruction) = i
  rw [h.get?_removeSkipsWhere_kept hu hskip, hi, Instruction.redirectAll_eq_with]
  refine ⟨_, congrArg some (by rw [← hi]), fun t ↦ ?_⟩
  rw [Instruction.mem_targets_redirectAll fun s hs ↦ (survivor_of_mem_replaceableSkips hs).2]
  constructor
  · rintro ⟨v, hv, rfl⟩
    obtain ⟨w, hw, rfl⟩ := List.mem_map.1 hv
    exact ⟨w, hw, (h.replacement_eq (ht w hw)).symm⟩
  · rintro ⟨w, hw, rfl⟩
    exact ⟨_, List.mem_map_of_mem hw, h.replacement_eq (ht w hw)⟩

/-- The targets of a copy keep their order, and of those that become equal the first one stays. -/
theorem targets_removeSkipsWhere_copy {u : InstrId} (hu : u ∈ cs)
    (hskip : (p.fetch u).isSkip = false) (ht : ∀ t ∈ (p.fetch u).targets, t ∉ cs.map copy)
    (hnodup : (p.fetch u).targets.Nodup) :
    ((r.removeSkipsWhere fun id _ ↦ id ∈ cs.map copy).1.fetch (copy u)).targets =
      ((p.fetch u).targets.map (p.copyTarget cs exit copy)).eraseDups := by
  have hcopied : ((p.fetch u).targets.map fun t ↦ if t ∈ cs then copy t else t).Nodup := by
    refine hnodup.map_on fun t htu v hvu e ↦ ?_
    split at e <;> split at e
    · next htc hvc => exact h.copy_inj htc hvc e
    · next htc _ => exact absurd (e ▸ List.mem_map_of_mem htc) (ht v hvu)
    · next _ hvc => exact absurd (e ▸ List.mem_map_of_mem hvc) (ht t htu)
    · exact e
  rw [fetch_eq (h.get?_removeSkipsWhere_kept hu hskip), Instruction.targets_redirectAll
    (fun s hs ↦ (survivor_of_mem_replaceableSkips hs).2) hcopied, List.map_map]
  congr 1
  exact List.map_congr_left fun t htu ↦ h.replacement_eq (ht t htu)

end HasCopies

end Program

/-! ### The whole unwinding -/

namespace Program

variable {p r : Program} {cs : List InstrId} {exit : InstrId}

theorem freshIds_eq_map {l : List InstrId} (hl : l.Nodup) :
    p.freshIds l.length = l.map fun id ↦ ⟨p.slots.size + l.idxOf id⟩ := by
  refine List.ext_getElem (by simp) fun k hk hk' ↦ ?_
  simp only [List.length_map] at hk'
  simp only [freshIds, List.getElem_map, List.getElem_range, hl.idxOf_getElem k hk']

/-- What is written behind the exit `x` of an unwound loop: a jump over the marker, unless the exit
is always taken, and the marker. -/
def tailBehind (x : Instruction) (behind : InstrId) (builder : GuardBuilder) : List Instruction :=
  if x.isAlwaysTaken then [Instruction.skip.scaffoldAt x]
  else [(Instruction.goto behind builder.truth).scaffoldAt x, Instruction.skip.scaffoldAt x]

/-- The id of the jump over the marker, if there is one, and that of the marker. -/
theorem freshIds_tailBehind (x : Instruction) (behind : InstrId) (builder : GuardBuilder) :
    p.freshIds (tailBehind x behind builder).length =
      (if x.isAlwaysTaken then none else some p.fresh).toList ++
        [⟨p.slots.size + if x.isAlwaysTaken then 0 else 1⟩] := by
  unfold tailBehind
  cases x.isAlwaysTaken <;> simp [freshIds, fresh, List.range_succ]

theorem get?_tailBehind_marker (k : Nat) (x : Instruction) (behind : InstrId)
    (builder : GuardBuilder) : (p.insertAllAt k (tailBehind x behind builder)).get?
      ⟨p.slots.size + if x.isAlwaysTaken then 0 else 1⟩ =
        some (Instruction.skip.scaffoldAt x) := by
  rw [get?_insertAllAt_fresh, tailBehind]
  cases x.isAlwaysTaken <;> rfl

theorem get?_tailBehind_guard (k : Nat) {x : Instruction} (behind : InstrId)
    (builder : GuardBuilder) (hx : x.isAlwaysTaken = false) :
    (p.insertAllAt k (tailBehind x behind builder)).get? p.fresh =
      some ((Instruction.goto behind builder.truth).scaffoldAt x) := by
  have := p.get?_insertAllAt_fresh k (tailBehind x behind builder) 0
  rw [tailBehind, hx] at this ⊢
  exact this

theorem bodyToCopy_eq_ok {head : InstrId} {body : List InstrId}
    (h : p.range head exit = .ok body) (hne : body ≠ []) : p.bodyToCopy head exit = .ok body := by
  rw [bodyToCopy, h]
  exact if_neg (by simpa using hne)

theorem behindExit_eq_ok (head : InstrId) {behind : InstrId} (h : p.next? exit = some behind) :
    p.behindExit head exit = .ok behind := by
  rw [behindExit, h]

theorem range_of_bodyToCopy {head : InstrId} {body : List InstrId}
    (h : p.bodyToCopy head exit = .ok body) : p.range head exit = .ok body ∧ body ≠ [] := by
  rw [bodyToCopy] at h
  cases hrange : p.range head exit with
  | error e =>
    rw [hrange] at h
    cases h
  | ok ids =>
    rw [hrange] at h
    by_cases hne : ids = []
    · subst hne
      cases h
    · cases (if_neg (by simpa using hne)).symm.trans h
      exact ⟨rfl, hne⟩

theorem next?_of_behindExit {head behind : InstrId} (h : p.behindExit head exit = .ok behind) :
    p.next? exit = some behind := by
  rw [behindExit] at h
  cases hnext : p.next? exit with
  | none =>
    rw [hnext] at h
    cases h
  | some id =>
    rw [hnext] at h
    cases h
    rfl

/-- The copies with their jumps resolved, skips included. -/
def withAllCopies (p : Program) (exit : InstrId) (copies : List (Instruction × List CopiedTarget)) :
    Program :=
  let ids := p.freshIds copies.length
  (p.insertAllAt (p.position exit) (copies.map Prod.fst)).retargeted ids
    (ids.zip (copies.map Prod.snd))

/-- The copies with their jumps resolved, without skips. -/
def withCopies (p : Program) (exit : InstrId) (copies : List (Instruction × List CopiedTarget)) :
    Program :=
  ((p.withAllCopies exit copies).removeSkipsWhere fun id _ ↦ id ∈ p.freshIds copies.length).1

/-- The copies of the instructions `cs` of a program, with where their jumps go. -/
def listedCopies (p : Program) (cs : List InstrId) : List (Instruction × List CopiedTarget) :=
  cs.map fun u ↦ ((p.fetch u).duplicate, (p.fetch u).targets.map (resolved cs))

@[simp] theorem length_listedCopies : (p.listedCopies cs).length = cs.length := by
  simp [listedCopies]

/-- The id of the copy of an instruction, the first one having the id `n`. -/
def copyId (n : Nat) (cs : List InstrId) (u : InstrId) : InstrId :=
  ⟨n + cs.idxOf u⟩

theorem freshIds_length_listedCopies (hcs : cs.Nodup) :
    r.freshIds (p.listedCopies cs).length = cs.map (copyId r.slots.size cs) := by
  rw [length_listedCopies, freshIds_eq_map hcs]
  rfl

theorem splice_withAllCopies (hcs : cs.Nodup) (hexit : exit ∈ r.order) :
    Splice r (r.withAllCopies exit (p.listedCopies cs)) (r.position exit)
      (cs.map (copyId r.slots.size cs)) := by
  have hsplice := splice_insertAllAt ((p.listedCopies cs).map Prod.fst)
    (Nat.le_of_lt (position_lt_iff.2 hexit))
  rw [List.length_map, freshIds_length_listedCopies hcs] at hsplice
  exact ⟨hsplice.le, by rw [withAllCopies, order_retargeted, hsplice.order]⟩

theorem get?_withAllCopies_old {id : InstrId} (hid : id ∈ r.order) :
    (r.withAllCopies exit (p.listedCopies cs)).get? id = r.get? id := by
  rw [withAllCopies, get?_retargeted_of_notMem, get?_insertAllAt_of_mem hid]
  intro hmem
  obtain ⟨e, he, rfl⟩ := List.mem_map.1 hmem
  exact notMem_of_mem_freshIds (List.of_mem_zip he).1 hid

theorem get?_withAllCopies_copy (hcs : cs.Nodup) {u : InstrId} (hu : u ∈ cs) :
    (r.withAllCopies exit (p.listedCopies cs)).get? (copyId r.slots.size cs u) =
      some { (p.fetch u).duplicate with
        targets := (p.fetch u).targets.map fun t ↦
          if t ∈ cs then copyId r.slots.size cs t else t } := by
  have hzip : (r.freshIds (p.listedCopies cs).length).zip ((p.listedCopies cs).map Prod.snd) =
      cs.map fun u ↦ (copyId r.slots.size cs u, (p.fetch u).targets.map (resolved cs)) := by
    rw [freshIds_length_listedCopies hcs, listedCopies, List.map_map, List.zip_map']
    rfl
  have hkeys : ((cs.map fun u ↦ (copyId r.slots.size cs u,
      (p.fetch u).targets.map (resolved cs))).map Prod.fst).Nodup := by
    have : r.freshIds cs.length = cs.map (copyId r.slots.size cs) := freshIds_eq_map hcs
    rw [List.map_map]
    refine (?_ : (cs.map (copyId r.slots.size cs)).Nodup)
    rw [← this]
    exact (List.nodup_range).map fun a b hab ↦ by simpa using hab
  have hget : (r.insertAllAt (r.position exit) ((p.listedCopies cs).map Prod.fst)).get?
      (copyId r.slots.size cs u) = some (p.fetch u).duplicate := by
    rw [copyId, get?_insertAllAt_fresh, listedCopies, List.map_map, List.getElem?_map,
      List.getElem?_idxOf hu]
    rfl
  rw [withAllCopies, hzip, get?_retargeted_of_mem hkeys (List.mem_map_of_mem hu), hget,
    Option.map_some, freshIds_length_listedCopies hcs, List.map_map]
  congr 2
  refine List.map_congr_left fun t _ ↦ ?_
  exact resolve_resolved _ t

theorem hasCopies_withAllCopies (hcs : cs.Nodup) (hexit : exit ∈ r.order) :
    HasCopies p (r.withAllCopies exit (p.listedCopies cs)) exit cs (copyId r.slots.size cs) where
  order := by
    rw [(splice_withAllCopies hcs hexit).order, drop_position hexit]
    exact ⟨_, _, rfl⟩
  get?_copy u hu := get?_withAllCopies_copy hcs hu

theorem splice_withCopies (hcs : cs.Nodup) (hexit : exit ∈ r.order) :
    Splice r (r.withCopies exit (p.listedCopies cs)) (r.position exit)
      ((cs.filter fun u ↦ !(p.fetch u).isSkip).map (copyId r.slots.size cs)) := by
  rw [withCopies, freshIds_length_listedCopies hcs]
  exact (hasCopies_withAllCopies hcs hexit).splice_removeSkipsWhere
    (Nat.le_of_lt (position_lt_iff.2 hexit)) (splice_withAllCopies hcs hexit).order

/-- Copies change nothing that was there before. -/
theorem get?_withCopies_old (hcs : cs.Nodup) (hexit : exit ∈ r.order) {id : InstrId}
    (hid : id ∈ r.order) (ht : ∀ i, r.get? id = some i → ∀ t ∈ i.targets, t ∈ r.order) :
    (r.withCopies exit (p.listedCopies cs)).get? id = r.get? id := by
  have hnew : ∀ t ∈ r.order, t ∉ cs.map (copyId r.slots.size cs) := fun t ht hmem ↦
    (splice_withAllCopies (p := p) hcs hexit).notMem_of_mem_new hmem ht
  rw [withCopies, freshIds_length_listedCopies hcs,
    (hasCopies_withAllCopies hcs hexit).get?_removeSkipsWhere_old (hnew id hid),
    get?_withAllCopies_old hid]
  intro i hi t hti
  rw [get?_withAllCopies_old hid] at hi
  exact hnew t (ht i hi t hti)

theorem get?_withCopies_copy (hcs : cs.Nodup) (hexit : exit ∈ r.order) {u : InstrId} (hu : u ∈ cs)
    (hskip : (p.fetch u).isSkip = false) (ht : ∀ t ∈ (p.fetch u).targets, t ∈ r.order) :
    ∃ ts, (r.withCopies exit (p.listedCopies cs)).get? (copyId r.slots.size cs u) =
        some { (p.fetch u).duplicate with targets := ts } ∧
      ∀ t, t ∈ ts ↔
        ∃ v ∈ (p.fetch u).targets, p.copyTarget cs exit (copyId r.slots.size cs) v = t := by
  rw [withCopies, freshIds_length_listedCopies hcs]
  exact (hasCopies_withAllCopies hcs hexit).get?_removeSkipsWhere_copy hu hskip fun t htu hmem ↦
    (splice_withAllCopies (p := p) hcs hexit).notMem_of_mem_new hmem (ht t htu)

theorem targets_withCopies_copy (hcs : cs.Nodup) (hexit : exit ∈ r.order) {u : InstrId}
    (hu : u ∈ cs) (hskip : (p.fetch u).isSkip = false) (ht : ∀ t ∈ (p.fetch u).targets, t ∈ r.order)
    (hnodup : (p.fetch u).targets.Nodup) :
    ((r.withCopies exit (p.listedCopies cs)).fetch (copyId r.slots.size cs u)).targets =
      ((p.fetch u).targets.map
        (p.copyTarget cs exit (copyId r.slots.size cs))).eraseDups := by
  rw [withCopies, freshIds_length_listedCopies hcs]
  exact (hasCopies_withAllCopies hcs hexit).targets_removeSkipsWhere_copy hu hskip
    (fun t htu hmem ↦ (splice_withAllCopies (p := p) hcs hexit).notMem_of_mem_new hmem (ht t htu))
    hnodup

/-- The program with the marker, and the jump over it if there is one, behind the exit. -/
def withTail (p : Program) (exit behind : InstrId) (builder : GuardBuilder) : Program :=
  p.insertAllAt (p.position exit + 1) (tailBehind (p.fetch exit) behind builder)

/-- The program with the marker behind the exit and the copies in front of it. -/
def withIteration (p : Program) (exit behind : InstrId) (builder : GuardBuilder)
    (cs : List InstrId) : Program :=
  (p.withTail exit behind builder).withCopies exit (p.listedCopies cs)

section

variable (hexit : exit ∈ p.order) (behind : InstrId) (builder : GuardBuilder)

include hexit

theorem splice_withTail : p.Splice (p.withTail exit behind builder) (p.position exit + 1)
    ((if (p.fetch exit).isAlwaysTaken then none else some p.fresh).toList ++
      [⟨p.slots.size + if (p.fetch exit).isAlwaysTaken then 0 else 1⟩]) := by
  have hsplice := splice_insertAllAt (tailBehind (p.fetch exit) behind builder)
    (position_lt_iff.2 hexit)
  rwa [freshIds_tailBehind] at hsplice

theorem mem_withTail {id : InstrId} (hid : id ∈ p.order) :
    id ∈ (p.withTail exit behind builder).order :=
  (splice_withTail hexit behind builder).mem_old hid

theorem position_exit_withTail :
    (p.withTail exit behind builder).position exit = p.position exit := by
  rw [(splice_withTail hexit behind builder).position_old hexit, if_pos (Nat.lt_succ_self _)]

end

theorem get?_withTail {behind id : InstrId} {builder : GuardBuilder} (hid : id ∈ p.order) :
    (p.withTail exit behind builder).get? id = p.get? id :=
  get?_insertAllAt_of_mem hid

section

variable {behind : InstrId} (builder : GuardBuilder) (hcs : cs.Nodup) (hexit : exit ∈ p.order)

include hcs hexit

/-- Whatever jumps only to what was there before is left alone by the copies. -/
theorem get?_withIteration {id : InstrId} {i : Instruction}
    (hi : (p.withTail exit behind builder).get? id = some i) (ht : ∀ t ∈ i.targets, t ∈ p.order) :
    (p.withIteration exit behind builder cs).get? id = some i := by
  rw [withIteration, get?_withCopies_old hcs (mem_withTail hexit behind builder hexit)
    (mem_of_get? hi), hi]
  intro i' hi' t hti
  cases hi.symm.trans hi'
  exact mem_withTail hexit behind builder (ht t hti)

theorem get?_withIteration_old (hlive : p.TargetsLive) {id : InstrId} (hid : id ∈ p.order) :
    (p.withIteration exit behind builder cs).get? id = p.get? id := by
  have hi := get?_eq_some_fetch hid
  rw [hi]
  exact get?_withIteration builder hcs hexit ((get?_withTail hid).trans hi) (hlive id _ hi)

theorem get?_withIteration_guard (hbehind : behind ∈ p.order)
    (hx : (p.fetch exit).isAlwaysTaken = false) :
    (p.withIteration exit behind builder cs).get? p.fresh =
      some ((Instruction.goto behind builder.truth).scaffoldAt (p.fetch exit)) := by
  refine get?_withIteration builder hcs hexit (get?_tailBehind_guard _ behind builder hx)
    fun t ht ↦ ?_
  cases List.mem_singleton.1 ht
  exact hbehind

theorem get?_withIteration_marker : (p.withIteration exit behind builder cs).get?
      ⟨p.slots.size + if (p.fetch exit).isAlwaysTaken then 0 else 1⟩ =
    some (Instruction.skip.scaffoldAt (p.fetch exit)) :=
  get?_withIteration builder hcs hexit (get?_tailBehind_marker _ _ behind builder) nofun

end

end Program

/-- The loop with the body `body` and the exit `exit` was unwound once. -/
structure Unwound (p q : Program) (body : List InstrId) (exit behind : InstrId)
    (builder : GuardBuilder) (copy : InstrId → InstrId) (guard : Option InstrId)
    (marker : InstrId) : Prop where
  next : p.next? exit = some behind
  /-- The copies stand in front of the exit; the jump over the marker, if there is one, and the
  marker stand behind it. -/
  splice : ∃ r, p.Splice r (p.position exit + 1) (guard.toList ++ [marker]) ∧
    r.Splice q (p.position exit) ((p.kept body).map copy)
  get?_old : ∀ id ∈ p.order, q.get? id = p.get? id
  get?_copy : ∀ u ∈ p.kept body, ∃ ts,
    q.get? (copy u) = some { (p.fetch u).duplicate with targets := ts } ∧
      ∀ t, t ∈ ts ↔ ∃ v ∈ (p.fetch u).targets, p.copyTarget (p.copied body) exit copy v = t
  targets_copy : ∀ u ∈ p.kept body, (p.fetch u).targets.Nodup → (q.fetch (copy u)).targets =
    ((p.fetch u).targets.map (p.copyTarget (p.copied body) exit copy)).eraseDups
  guard_isNone : guard.isNone = (p.fetch exit).isAlwaysTaken
  get?_guard : ∀ g, guard = some g →
    q.get? g = some ((Instruction.goto behind builder.truth).scaffoldAt (p.fetch exit))
  get?_marker : q.get? marker = some (Instruction.skip.scaffoldAt (p.fetch exit))

namespace Unwound

variable {p q : Program} {head exit behind marker x : InstrId} {body b₁ b₂ : List InstrId}
  {builder : GuardBuilder} {copy : InstrId → InstrId} {guard : Option InstrId}

theorem exit_mem (h : Unwound p q body exit behind builder copy guard marker) : exit ∈ p.order :=
  (Program.next?_eq_some_iff.1 h.next).1

/-- The exit does not move while instructions are put in behind it. -/
theorem exists_splices (h : Unwound p q body exit behind builder copy guard marker) :
    ∃ r, p.Splice r (p.position exit + 1) (guard.toList ++ [marker]) ∧
      r.position exit = p.position exit ∧
      r.Splice q (r.position exit) ((p.kept body).map copy) := by
  obtain ⟨r, hpr, hrq⟩ := h.splice
  have hpos : r.position exit = p.position exit := by
    rw [hpr.position_old h.exit_mem, if_pos (Nat.lt_succ_self _)]
  exact ⟨r, hpr, hpos, hpos ▸ hrq⟩

/-- The copies stand right before the exit, and what was written behind it right after it. -/
theorem order_eq (h : Unwound p q body exit behind builder copy guard marker) :
    q.order = p.order.take (p.position exit) ++ (p.kept body).map copy ++
      exit :: (guard.toList ++ marker :: p.order.drop (p.position exit + 1)) := by
  obtain ⟨r, htail, hcopies⟩ := h.splice
  have htake : p.order.take (p.position exit + 1) = p.order.take (p.position exit) ++ [exit] := by
    rw [List.take_add_one, Program.getElem?_position h.exit_mem, Option.toList_some]
  have hr : r.order = p.order.take (p.position exit) ++
      exit :: (guard.toList ++ marker :: p.order.drop (p.position exit + 1)) := by
    rw [htail.order, htake]
    simp only [List.append_assoc, List.cons_append, List.nil_append]
  have hlen := Program.length_take_position h.exit_mem
  rw [hcopies.order, hr, List.take_left' hlen, List.drop_left' hlen]

/-- Behind the exit stand the jump over the marker, if there is one, the marker, and then what stood
there before. -/
theorem isInfix_tail (h : Unwound p q body exit behind builder copy guard marker) :
    exit :: (guard.toList ++ [marker]) ++ [behind] <:+: q.order := by
  obtain ⟨r, hpr, -, hrq⟩ := h.exists_splices
  exact hrq.isInfix_behind (hpr.isInfix_insert (Program.isInfix_of_next? h.next))

/-- The copies stand in front of the exit. -/
theorem isInfix_copies (h : Unwound p q body exit behind builder copy guard marker) :
    (p.kept body).map copy ++ [exit] <:+: q.order := by
  obtain ⟨r, hpr, -, hrq⟩ := h.exists_splices
  exact hrq.isInfix_before (hpr.mem_old h.exit_mem)

/-- A stretch that the exit is not in stays in one piece. -/
theorem isInfix (h : Unwound p q body exit behind builder copy guard marker) {ys : List InstrId}
    (hys : ys <:+: p.order) (hexit : exit ∉ ys) : ys <:+: q.order := by
  obtain ⟨r, hpr, -, hrq⟩ := h.exists_splices
  exact hrq.isInfix_of_notMem_tail (hpr.isInfix_of_notMem_dropLast hys h.exit_mem
    fun hmem ↦ hexit (List.dropLast_subset _ hmem)) (hexit ∘ List.mem_of_mem_tail)

/-- The exit falls to what was written behind it. -/
theorem next?_exit (h : Unwound p q body exit behind builder copy guard marker) :
    q.next? exit = (guard.toList ++ [marker]).head? := by
  have hpair : ∀ y ys, exit :: y :: ys <:+: q.order → q.next? exit = some y := fun y ys hys ↦
    Program.next?_of_isInfix ((List.prefix_append [exit, y] ys).isInfix.trans hys)
  cases guard with
  | none => exact hpair marker _ h.isInfix_tail
  | some g => exact hpair g _ h.isInfix_tail

/-- The marker falls to what stood behind the exit before. -/
theorem next?_marker (h : Unwound p q body exit behind builder copy guard marker) :
    q.next? marker = some behind := by
  refine Program.next?_of_isInfix (List.IsInfix.trans ⟨exit :: guard.toList, [], ?_⟩ h.isInfix_tail)
  simp only [List.append_assoc, List.cons_append, List.nil_append, List.append_nil]

/-- What fell to the exit now falls to the copies; all else but the exit falls where it fell. -/
theorem next?_old (h : Unwound p q body exit behind builder copy guard marker)
    (hscaffold : ∀ u ∈ body, (p.fetch u).isScaffold = false) (hx : x ∈ p.order) (hne : x ≠ exit) :
    q.next? x = if p.next? x = some exit then some (p.firstCopy exit copy body)
      else p.next? x := by
  obtain ⟨r, hpr, hrq⟩ := h.splice
  have hexit := h.exit_mem
  have hposne : p.position x ≠ p.position exit := fun e ↦ hne ((Program.position_inj hx).1 e)
  have hr : r.next? x = p.next? x := by
    rw [hpr.next?_old hx, if_neg (by omega)]
  have hnext : p.next? x = some exit ↔ r.position x + 1 = p.position exit := by
    rw [Program.next?_eq_some_iff, and_iff_right hx, and_iff_right hexit, hpr.position_old hx]
    split <;> omega
  rw [hrq.next?_old (hpr.mem_old hx), hr, Program.kept, Program.copied_eq_self hscaffold]
  by_cases hk : p.next? x = some exit
  · rw [if_pos (hnext.1 hk), if_pos hk, hk, Program.head?_copies]
  · rw [if_neg fun e ↦ hk (hnext.2 e), if_neg hk]

/-- A copy falls to the next copy, or to the exit. -/
theorem next?_copy (h : Unwound p q (b₁ ++ x :: b₂) exit behind builder copy guard marker)
    (hscaffold : ∀ u ∈ b₁ ++ x :: b₂, (p.fetch u).isScaffold = false)
    (hx : (p.fetch x).isSkip = false) : q.next? (copy x) = some (p.firstCopy exit copy b₂) := by
  obtain ⟨r, hpr, -, hrq⟩ := h.exists_splices
  have hget : r.order[r.position exit]? = some exit :=
    Program.getElem?_position (hpr.mem_old h.exit_mem)
  rw [Program.kept, Program.copied_eq_self hscaffold, List.filter_append,
    List.filter_cons_of_pos (by simp [hx]), List.map_append, List.map_cons] at hrq
  rw [hrq.next?_new, hget, Program.head?_copies]

end Unwound

namespace Edit

variable {p : Program} {head exit behind : InstrId} {body : List InstrId}

/-- Writes copies in front of an exit; the marker is already there. -/
def writeCopies (exit marker : InstrId) (copies : List (Instruction × List CopiedTarget)) :
    Edit IterationPoints := do
  let ids ← insertAllBefore exit (copies.map Prod.fst)
  retarget ids (ids.zip (copies.map Prod.snd))
  modify fun p ↦ (p.removeSkipsWhere fun id _ ↦ id ∈ ids).1
  let p ← get
  return { firstExit := marker, copyExit := ids.reverse.find? (p.contains ·) }

theorem run_writeCopies (hexit : exit ∈ p.order) (marker : InstrId)
    (copies : List (Instruction × List CopiedTarget)) :
    (writeCopies exit marker copies).run p = .ok
      { firstExit := marker
        copyExit := (p.freshIds copies.length).reverse.find?
          ((p.withCopies exit copies).contains ·) }
      (p.withCopies exit copies) := by
  have hsplice := Program.splice_insertAllAt (copies.map Prod.fst)
    (Nat.le_of_lt (Program.position_lt_iff.2 hexit))
  rw [writeCopies, EStateM.run_bind, run_insertAllBefore hexit]
  simp only [EStateM.run_bind, List.length_map]
  rw [run_retarget _ fun e he ↦ hsplice.mem_new (by
    rw [List.length_map]
    exact (List.of_mem_zip he).1)]
  rfl

/-- The guard and the marker, and then the copies. -/
theorem run_duplicateBody_eq (builder : GuardBuilder)
    {copies : List (Instruction × List CopiedTarget)}
    (hrange : p.range head exit = .ok body) (hne : body ≠ [])
    (hnext : p.next? exit = some behind)
    (hcopies : p.copiesOf head body (p.copied body) = .ok copies) :
    (duplicateBody head exit builder).run p =
      (writeCopies exit ⟨p.slots.size + if (p.fetch exit).isAlwaysTaken then 0 else 1⟩
        copies).run (p.withTail exit behind builder) := by
  obtain ⟨-, hexit, -⟩ := Program.range_eq_ok hrange
  obtain ⟨x, hx⟩ := Program.mem_order_iff_get?.1 hexit
  obtain ⟨-, hbehind, hpos⟩ := Program.next?_eq_some_iff.1 hnext
  rw [Program.copied] at hcopies
  rw [duplicateBody, Program.withTail, Program.fetch_eq hx]
  simp only [EStateM.run_bind, run_ask, Program.bodyToCopy_eq_ok hrange hne,
    Program.behindExit_eq_ok head hnext, hcopies, run_fetch hx]
  cases hx' : x.isAlwaysTaken with
  | false =>
    have hsplice := Program.splice_insertAt (p := p) (k := p.position exit + 1)
      (i := (Instruction.goto behind builder.truth).scaffoldAt x)
      (by have := Program.position_lt_iff.2 hbehind; omega)
    have hpos' : (p.insertAt (p.position exit + 1)
        ((Instruction.goto behind builder.truth).scaffoldAt x)).position behind =
        p.position exit + 1 + 1 := by
      rw [hsplice.position_old hbehind, if_neg (by omega), hpos]
      rfl
    simp only [Bool.not_false, if_true, EStateM.run_bind, run_discard, run_insertBefore hbehind,
      hpos, run_insertBefore (hsplice.mem_old hbehind), hpos', Program.fresh_insertAt]
    rw [Program.tailBehind, hx']
    rfl
  | true =>
    simp only [Bool.not_true, Bool.false_eq_true, if_false, EStateM.run_bind,
      run_insertBefore hbehind, hpos]
    rw [Program.tailBehind, hx']
    rfl

theorem copyExit_eq {r : Program} {cs : List InstrId} (hcs : cs.Nodup) (hexit : exit ∈ r.order) :
    (r.freshIds (p.listedCopies cs).length).reverse.find?
        ((r.withCopies exit (p.listedCopies cs)).contains ·) =
      ((cs.filter fun u ↦ !(p.fetch u).isSkip).map
        (Program.copyId r.slots.size cs)).getLast? := by
  have hsplice := Program.splice_withCopies (p := p) hcs hexit
  have hall := Program.splice_withAllCopies (p := p) hcs hexit
  have hcopies := Program.hasCopies_withAllCopies (p := p) hcs hexit
  have hstays : ∀ u ∈ cs, (r.withCopies exit (p.listedCopies cs)).contains
      (Program.copyId r.slots.size cs u) = !(p.fetch u).isSkip := by
    intro u hu
    have hnew : Program.copyId r.slots.size cs u ∉ r.order :=
      hall.notMem_of_mem_new (List.mem_map_of_mem hu)
    rw [Bool.eq_iff_iff, Program.contains_iff, hsplice.mem_iff]
    constructor
    · rintro (hmem | hmem)
      · exact absurd hmem hnew
      · obtain ⟨v, hv, huv⟩ := List.mem_map.1 hmem
        obtain ⟨hv, hskip⟩ := List.mem_filter.1 hv
        rwa [hcopies.copy_inj hu hv huv.symm]
    · intro hskip
      exact .inr (List.mem_map_of_mem (List.mem_filter.2 ⟨hu, hskip⟩))
  rw [Program.freshIds_length_listedCopies hcs, ← List.head?_filter, List.filter_reverse,
    List.head?_reverse, List.filter_map]
  congr 2
  refine List.filter_congr fun u hu ↦ ?_
  rw [Function.comp_apply, hstays u hu]

/-- A loop whose copies can all be made is unwound. -/
theorem run_duplicateBody_of_copiesOf (builder : GuardBuilder)
    (hrange : p.range head exit = .ok body) (hne : body ≠ [])
    (hnext : p.next? exit = some behind)
    (hcopies : p.copiesOf head body (p.copied body) = .ok (p.listedCopies (p.copied body))) :
    (duplicateBody head exit builder).run p = .ok
      { firstExit := ⟨p.slots.size + if (p.fetch exit).isAlwaysTaken then 0 else 1⟩
        copyExit := ((p.kept body).map (Program.copyId
          (p.withTail exit behind builder).slots.size (p.copied body))).getLast? }
      (p.withIteration exit behind builder (p.copied body)) := by
  have hexit := (Program.range_eq_ok hrange).2.1
  have hexit' := Program.mem_withTail hexit behind builder hexit
  rw [run_duplicateBody_eq builder hrange hne hnext hcopies, run_writeCopies hexit',
    copyExit_eq (Program.copied_nodup (Program.nodup_of_range hrange)) hexit']
  rfl

/-- What unwinding leaves of a program whose targets are live. -/
theorem unwound_withIteration (builder : GuardBuilder) (hlive : p.TargetsLive)
    (hrange : p.range head exit = .ok body) (hnext : p.next? exit = some behind) :
    Unwound p (p.withIteration exit behind builder (p.copied body)) body exit behind builder
      (Program.copyId (p.withTail exit behind builder).slots.size (p.copied body))
      (if (p.fetch exit).isAlwaysTaken then none else some p.fresh)
      ⟨p.slots.size + if (p.fetch exit).isAlwaysTaken then 0 else 1⟩ := by
  obtain ⟨-, hexit, -⟩ := Program.range_eq_ok hrange
  have hcs := Program.copied_nodup (p := p) (Program.nodup_of_range hrange)
  have hexit' := Program.mem_withTail hexit behind builder hexit
  have hlives : ∀ u ∈ p.copied body, ∀ t ∈ (p.fetch u).targets,
      t ∈ (p.withTail exit behind builder).order := by
    intro u hu t ht
    have hup := ((Program.mem_range_iff hrange).1 (Program.mem_copied.1 hu).1).1
    exact Program.mem_withTail hexit behind builder
      (hlive u _ (Program.get?_eq_some_fetch hup) t ht)
  constructor
  case next => exact hnext
  case splice =>
    refine ⟨_, Program.splice_withTail hexit behind builder, ?_⟩
    rw [← Program.position_exit_withTail hexit behind builder]
    exact Program.splice_withCopies hcs hexit'
  case get?_old => exact fun _ ↦ Program.get?_withIteration_old builder hcs hexit hlive
  case get?_copy =>
    intro u hu
    obtain ⟨hu, hskip⟩ := Program.mem_kept.1 hu
    exact Program.get?_withCopies_copy hcs hexit' hu hskip (hlives u hu)
  case targets_copy =>
    intro u hu hnodup
    obtain ⟨hu, hskip⟩ := Program.mem_kept.1 hu
    exact Program.targets_withCopies_copy hcs hexit' hu hskip (hlives u hu) hnodup
  case guard_isNone =>
    cases (p.fetch exit).isAlwaysTaken <;> rfl
  case get?_guard =>
    intro g hg
    obtain ⟨hx, rfl⟩ : (p.fetch exit).isAlwaysTaken = false ∧ p.fresh = g := by simpa using hg
    exact Program.get?_withIteration_guard builder hcs hexit (Program.mem_of_next? hnext) hx
  case get?_marker => exact Program.get?_withIteration_marker builder hcs hexit

/-- A loop that has a body, does not end the function and has no jump to scaffolding inside it is
unwound. -/
theorem run_duplicateBody (builder : GuardBuilder) (hlive : p.TargetsLive)
    (hrange : p.range head exit = .ok body) (hne : body ≠ [])
    (hnext : p.next? exit = some behind)
    (hin : ∀ u ∈ p.copied body, ∀ t ∈ (p.fetch u).targets, t ∈ body → t ∈ p.copied body) :
    ∃ copy guard pts q, (duplicateBody head exit builder).run p = .ok pts q ∧
      Unwound p q body exit behind builder copy guard pts.firstExit ∧
      pts.copyExit = ((p.kept body).map copy).getLast? := by
  have hcopies : p.copiesOf head body (p.copied body) = .ok (p.listedCopies (p.copied body)) :=
    Program.copiesOf_eq_ok hin fun u hu t ht ↦
      hlive u _ (Program.get?_eq_some_fetch ((Program.mem_range_iff hrange).1
        (Program.mem_copied.1 hu).1).1) t ht
  exact ⟨_, _, _, _, run_duplicateBody_of_copiesOf builder hrange hne hnext hcopies,
    unwound_withIteration builder hlive hrange hnext, rfl⟩

/-- Where a loop is unwound it has a body, something stands behind its exit, and every jump of the
body can be resolved. -/
theorem exists_of_run_duplicateBody {builder : GuardBuilder} {pts : IterationPoints} {q : Program}
    (hrun : (duplicateBody head exit builder).run p = .ok pts q) :
    ∃ body behind copies, p.range head exit = .ok body ∧ body ≠ [] ∧
      p.next? exit = some behind ∧ p.copiesOf head body (p.copied body) = .ok copies := by
  rw [duplicateBody] at hrun
  obtain ⟨body, r₁, hbody, hrun₁⟩ := EStateM.exists_of_run_bind hrun
  obtain ⟨hbody, rfl⟩ := eq_of_run_ask hbody
  obtain ⟨behind, r₂, hbehind, hrun₂⟩ := EStateM.exists_of_run_bind hrun₁
  obtain ⟨hbehind, rfl⟩ := eq_of_run_ask hbehind
  obtain ⟨copied, r₃, hcopied, hrun₃⟩ := EStateM.exists_of_run_bind hrun₂
  obtain ⟨hcopied, rfl⟩ := eq_of_run_ask hcopied
  obtain ⟨copies, r₄, hcopies, -⟩ := EStateM.exists_of_run_bind hrun₃
  obtain ⟨hcopies, rfl⟩ := eq_of_run_ask hcopies
  cases hcopied
  obtain ⟨hrange, hne⟩ := Program.range_of_bodyToCopy hbody
  exact ⟨body, behind, copies, hrange, hne, Program.next?_of_behindExit hbehind, hcopies⟩

end Edit

end LoopInduction
