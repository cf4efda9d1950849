import LoopInduction.Program.Skips
import LoopInduction.Proofs.Program.Jumps
import Mathlib.Data.List.Induction

/-!
# What the removal of skips leaves

Skips go one after the other. Together they leave the instructions that were not replaced, in their
order (`Program.order_removeSkipsWhere`), each with its jumps to replaced skips redirected
(`Program.get?_removeSkipsWhere`). Which skips are replaced, and by what, is said by
`Program.mem_replaceableSkips_iff`.

## Main definitions

* `Instruction.redirectAll` : one redirection after the other.
* `Program.replacement` : where a jump goes once some skips have been replaced.
* `Program.accepts` : an instruction is a skip that a predicate accepts.
-/

namespace LoopInduction

/-! ### Lists without repetitions -/

section EraseDups

variable {α β : Type} [BEq α] [LawfulBEq α] [BEq β] [LawfulBEq β]

theorem nodup_eraseDups : (l : List α) → l.eraseDups.Nodup
  | [] => List.nodup_nil
  | a :: l => by
    rw [List.eraseDups_cons, List.nodup_cons]
    exact ⟨by simp, nodup_eraseDups _⟩
termination_by l => l.length
decreasing_by exact Nat.lt_succ_of_le (List.length_filter_le ..)

theorem eraseDups_eq_self {l : List α} (h : l.Nodup) : l.eraseDups = l := by
  induction l with
  | nil => rfl
  | cons a l ih =>
    obtain ⟨ha, hl⟩ := List.nodup_cons.1 h
    have hfilter : l.filter (!· == a) = l :=
      List.filter_eq_self.2 fun b hb ↦ by simpa using fun e : b = a ↦ ha (e ▸ hb)
    rw [List.eraseDups_cons, hfilter, ih hl]

theorem eraseDups_concat (l : List α) (a : α) :
    (l ++ [a]).eraseDups = if a ∈ l then l.eraseDups else l.eraseDups ++ [a] := by
  rw [List.eraseDups_append, List.removeAll]
  by_cases h : a ∈ l
  · simp [h]
  · simp [h, List.eraseDups_cons]

/-- A map that keeps different elements apart keeps the places of repetitions. -/
theorem eraseDups_map {f : α → β} {l : List α} (h : ∀ a ∈ l, ∀ b ∈ l, f a = f b → a = b) :
    (l.map f).eraseDups = l.eraseDups.map f := by
  induction l using List.reverseRecOn with
  | nil => rfl
  | append_singleton l a ih =>
    have hmem : f a ∈ l.map f ↔ a ∈ l := by
      refine ⟨fun hfa ↦ ?_, List.mem_map_of_mem⟩
      obtain ⟨b, hb, hba⟩ := List.mem_map.1 hfa
      rwa [← h b (by simp [hb]) a (by simp) hba]
    rw [List.map_append, List.map_singleton, eraseDups_concat, eraseDups_concat,
      ih fun b hb c hc ↦ h b (by simp [hb]) c (by simp [hc])]
    simp only [hmem]
    split <;> simp

/-- Repetitions may be dropped before a list is mapped, too. -/
theorem eraseDups_map_eraseDups (f : α → β) (l : List α) :
    (l.eraseDups.map f).eraseDups = (l.map f).eraseDups := by
  induction l using List.reverseRecOn with
  | nil => rfl
  | append_singleton l a ih =>
    rw [eraseDups_concat, List.map_append, List.map_singleton, eraseDups_concat]
    have hmem : f a ∈ l.eraseDups.map f ↔ f a ∈ l.map f := by
      simp only [List.mem_map, List.mem_eraseDups]
    by_cases h : a ∈ l
    · rw [if_pos h, if_pos (List.mem_map_of_mem h), ih]
    · rw [if_neg h, List.map_append, List.map_singleton, eraseDups_concat, ih]
      simp only [hmem]

end EraseDups

/-! ### Redirecting along replacements -/

/-- Redirects a jump along replacements, one after the other. -/
def Instruction.redirectAll (replaced : List (InstrId × InstrId)) (i : Instruction) : Instruction :=
  replaced.foldl (fun i s ↦ i.redirect s.1 s.2) i

namespace Program

variable {p : Program} {id a b : InstrId} {replaced : List (InstrId × InstrId)}

/-- Where a jump to `t` goes once some instructions have been replaced. -/
def replacement (replaced : List (InstrId × InstrId)) (t : InstrId) : InstrId :=
  (replaced.lookup t).getD t

theorem replacement_cons (s : InstrId × InstrId) (t : InstrId) :
    replacement (s :: replaced) t = if t = s.1 then s.2 else replacement replaced t := by
  rw [replacement, List.lookup_cons]
  by_cases h : t = s.1
  · simp [h]
  · rw [if_neg h, beq_eq_false_iff_ne.2 h]
    rfl

theorem replacement_of_notMem (h : a ∉ replaced.map Prod.fst) : replacement replaced a = a := by
  induction replaced with
  | nil => rfl
  | cons s l ih =>
    rw [List.map_cons, List.mem_cons, not_or] at h
    rw [replacement_cons, if_neg h.1, ih h.2]

theorem replacement_of_mem (hnodup : (replaced.map Prod.fst).Nodup) (h : (a, b) ∈ replaced) :
    replacement replaced a = b := by
  induction replaced with
  | nil => cases h
  | cons s l ih =>
    rw [List.map_cons, List.nodup_cons] at hnodup
    rw [replacement_cons]
    rcases List.mem_cons.1 h with rfl | h
    · exact if_pos rfl
    · have hne : a ≠ s.1 := fun e ↦ hnodup.1 (e ▸ List.mem_map_of_mem h)
      rw [if_neg hne, ih hnodup.2 h]

/-- What takes a place and is not replaced is not replaced further on either. -/
theorem notMem_map_fst_of_cons {s : InstrId × InstrId}
    (h : ∀ s' ∈ s :: replaced, s'.2 ∉ (s :: replaced).map Prod.fst) :
    ∀ s' ∈ s :: replaced, s'.2 ∉ replaced.map Prod.fst := fun s' hs' hmem ↦
  h s' hs' (List.mem_cons_of_mem _ hmem)

end Program

namespace Instruction

variable {i : Instruction} {replaced : List (InstrId × InstrId)} {t : InstrId}

@[simp] theorem redirectAll_nil : i.redirectAll [] = i := rfl

@[simp] theorem redirectAll_cons (s : InstrId × InstrId) :
    i.redirectAll (s :: replaced) = (i.redirect s.1 s.2).redirectAll replaced := rfl

/-- Only the targets change. -/
theorem redirectAll_eq_with :
    i.redirectAll replaced = { i with targets := (i.redirectAll replaced).targets } := by
  induction replaced generalizing i with
  | nil => rfl
  | cons s l ih =>
    rw [redirectAll_cons, ih, redirect_eq_with]

/-- Redirections to instructions that are not replaced themselves can be made at once. -/
theorem mem_targets_redirectAll (h : ∀ s ∈ replaced, s.2 ∉ replaced.map Prod.fst) :
    t ∈ (i.redirectAll replaced).targets ↔
      ∃ u ∈ i.targets, Program.replacement replaced u = t := by
  induction replaced generalizing i with
  | nil => simp [Program.replacement]
  | cons s l ih =>
    obtain ⟨hs, hl⟩ := List.forall_mem_cons.1 (Program.notMem_map_fst_of_cons h)
    rw [redirectAll_cons, ih hl]
    constructor
    · rintro ⟨v, hv, rfl⟩
      obtain ⟨u, hu, rfl⟩ := mem_targets_redirect.1 hv
      refine ⟨u, hu, ?_⟩
      rw [Program.replacement_cons]
      split
      · rw [Program.replacement_of_notMem hs]
      · rfl
    · rintro ⟨u, hu, rfl⟩
      refine ⟨_, mem_targets_redirect.2 ⟨u, hu, rfl⟩, ?_⟩
      rw [Program.replacement_cons]
      split
      · rw [Program.replacement_of_notMem hs]
      · rfl

theorem targets_redirect_of_nodup {old new : InstrId} (hnodup : i.targets.Nodup) :
    (i.redirect old new).targets =
      (i.targets.map fun t ↦ if t = old then new else t).eraseDups := by
  by_cases h : old ∈ i.targets
  · rw [redirect, if_pos h]
  · have hmap : (i.targets.map fun t ↦ if t = old then new else t) = i.targets :=
      (List.map_congr_left fun t ht ↦ if_neg fun e : t = old ↦ h (e ▸ ht)).trans (List.map_id _)
    rw [redirect_of_notMem h, hmap, eraseDups_eq_self hnodup]

/-- The targets keep their order, and of those that become equal the first one stays. -/
theorem targets_redirectAll (h : ∀ s ∈ replaced, s.2 ∉ replaced.map Prod.fst)
    (hnodup : i.targets.Nodup) : (i.redirectAll replaced).targets =
      (i.targets.map (Program.replacement replaced)).eraseDups := by
  induction replaced generalizing i with
  | nil =>
    have hmap : i.targets.map (Program.replacement []) = i.targets := List.map_id _
    rw [redirectAll_nil, hmap, eraseDups_eq_self hnodup]
  | cons s l ih =>
    obtain ⟨hs, hl⟩ := List.forall_mem_cons.1 (Program.notMem_map_fst_of_cons h)
    have htargets : (i.redirect s.1 s.2).targets =
        (i.targets.map fun t ↦ if t = s.1 then s.2 else t).eraseDups :=
      targets_redirect_of_nodup hnodup
    rw [redirectAll_cons, ih hl (htargets ▸ nodup_eraseDups _), htargets, eraseDups_map_eraseDups,
      List.map_map]
    congr 1
    refine List.map_congr_left fun t _ ↦ ?_
    rw [Function.comp_apply, Program.replacement_cons]
    split
    · rw [Program.replacement_of_notMem hs]
    · rfl

theorem redirectAll_of_notMem (h : ∀ t ∈ i.targets, t ∉ replaced.map Prod.fst) :
    i.redirectAll replaced = i := by
  induction replaced with
  | nil => rfl
  | cons s l ih =>
    have hs : s.1 ∉ i.targets := fun ht ↦ h s.1 ht (by simp)
    rw [redirectAll_cons, redirect_of_notMem hs]
    exact ih fun t ht hmem ↦ h t ht (by rw [List.map_cons]; exact List.mem_cons_of_mem _ hmem)

end Instruction

namespace Program

variable {p : Program} {id a b : InstrId} {replaced : List (InstrId × InstrId)}
  {accept : InstrId → Instruction → Bool}

/-! ### One replacement after the other -/

theorem get?_replace (old new : InstrId) : (p.replace old new).get? id =
    if id = old then none else (p.get? id).map (·.redirect old new) := by
  rw [replace, get?_erase, get?_redirectTargets]
  rfl

theorem order_foldl_replace :
    (replaced.foldl (fun p s ↦ p.replace s.1 s.2) p).order =
      p.order.filter fun id ↦ id ∉ replaced.map Prod.fst := by
  induction replaced generalizing p with
  | nil => simp
  | cons s l ih =>
    rw [List.foldl_cons, ih, replace, order_erase, order_redirectTargets, List.filter_filter]
    refine List.filter_congr fun id _ ↦ ?_
    simp only [List.map_cons, List.mem_cons, not_or, ne_eq]
    rw [Bool.decide_and, Bool.and_comm]

theorem get?_foldl_replace :
    (replaced.foldl (fun p s ↦ p.replace s.1 s.2) p).get? id =
      if id ∈ replaced.map Prod.fst then none else (p.get? id).map (·.redirectAll replaced) := by
  induction replaced generalizing p with
  | nil => simp
  | cons s l ih =>
    rw [List.foldl_cons, ih, get?_replace, List.map_cons]
    by_cases hl : id ∈ l.map Prod.fst
    · rw [if_pos hl, if_pos (List.mem_cons_of_mem _ hl)]
    · by_cases hs : id = s.1
      · rw [if_neg hl, if_pos hs, if_pos (by simp [hs])]
        rfl
      · rw [if_neg hl, if_neg hs, if_neg (by simp only [List.mem_cons, not_or]; exact ⟨hs, hl⟩),
          Option.map_map]
        rfl

theorem order_removeSkipsWhere : (p.removeSkipsWhere accept).1.order =
    p.order.filter fun id ↦ id ∉ (p.replaceableSkips accept).map Prod.fst :=
  order_foldl_replace

theorem get?_removeSkipsWhere : (p.removeSkipsWhere accept).1.get? id =
    if id ∈ (p.replaceableSkips accept).map Prod.fst then none
    else (p.get? id).map (·.redirectAll (p.replaceableSkips accept)) :=
  get?_foldl_replace

/-! ### Which skips are replaced -/

theorem fst_withSurvivors (l : List (InstrId × Bool)) :
    (withSurvivors l).1 = (l.find? (!·.2)).map Prod.fst := by
  induction l with
  | nil => rfl
  | cons e l ih =>
    obtain ⟨a, m⟩ := e
    cases m with
    | false => rfl
    | true =>
      rw [withSurvivors, List.find?_cons_of_neg (by simp), ← ih]
      rcases withSurvivors l with ⟨_ | s, l'⟩ <;> rfl

/-- Where nothing is to stay, nothing is replaced. -/
theorem snd_withSurvivors_eq_nil {l : List (InstrId × Bool)} (h : (withSurvivors l).1 = none) :
    (withSurvivors l).2 = [] := by
  cases l with
  | nil => rfl
  | cons e l =>
    obtain ⟨c, m⟩ := e
    cases m with
    | false => cases h
    | true =>
      rw [withSurvivors] at h ⊢
      rcases hl : withSurvivors l with ⟨_ | s, l'⟩
      · rfl
      · rw [hl] at h
        cases h

theorem snd_withSurvivors_cons_true (l : List (InstrId × Bool)) :
    (withSurvivors ((a, true) :: l)).2 = match (withSurvivors l).1 with
      | none => []
      | some b => (a, b) :: (withSurvivors l).2 := by
  rw [withSurvivors]
  rcases withSurvivors l with ⟨_ | b, l'⟩ <;> rfl

/-- An element of a list with one more in front is that one, or stands further on. -/
theorem exists_cons_eq_append_cons_iff {α : Type} {e x : α} {l : List α} {P : List α → Prop} :
    (∃ pre post, e :: l = pre ++ x :: post ∧ P post) ↔
      (e = x ∧ P l) ∨ ∃ pre post, l = pre ++ x :: post ∧ P post := by
  constructor
  · rintro ⟨_ | ⟨e', pre⟩, post, h, hpost⟩
    · cases h
      exact .inl ⟨rfl, hpost⟩
    · cases h
      exact .inr ⟨pre, post, rfl, hpost⟩
  · rintro (⟨rfl, hl⟩ | ⟨pre, post, rfl, hpost⟩)
    · exact ⟨[], l, rfl, hl⟩
    · exact ⟨e :: pre, post, rfl, hpost⟩

/-- A marked entry is replaced by the first unmarked one behind it. -/
theorem mem_withSurvivors_iff {l : List (InstrId × Bool)} :
    (a, b) ∈ (withSurvivors l).2 ↔
      ∃ pre post, l = pre ++ (a, true) :: post ∧ (post.find? (!·.2)).map Prod.fst = some b := by
  induction l with
  | nil => simp [withSurvivors]
  | cons e l ih =>
    rw [exists_cons_eq_append_cons_iff, ← ih, ← fst_withSurvivors]
    obtain ⟨c, m⟩ := e
    cases m with
    | false => simp [withSurvivors]
    | true =>
      rw [snd_withSurvivors_cons_true]
      cases hfirst : (withSurvivors l).1 with
      | none =>
        -- without an unmarked entry behind, nothing further on is replaced either
        simp [snd_withSurvivors_eq_nil hfirst]
      | some s => simp [eq_comm]

theorem map_fst_withSurvivors_sublist (l : List (InstrId × Bool)) :
    ((withSurvivors l).2.map Prod.fst).Sublist (l.map Prod.fst) := by
  induction l with
  | nil => exact List.Sublist.refl _
  | cons e l ih =>
    obtain ⟨c, m⟩ := e
    cases m with
    | false => exact ih.cons c
    | true =>
      rw [withSurvivors]
      rcases hl : withSurvivors l with ⟨_ | s, l'⟩
      · exact List.nil_sublist _
      · rw [hl] at ih
        exact ih.cons_cons c

private theorem split_unique {l pre post pre' post' : List InstrId} (hl : l.Nodup)
    (h : l = pre ++ a :: post) (h' : l = pre' ++ a :: post') : post = post' := by
  have hidx : ∀ {s t : List InstrId}, l = s ++ a :: t → l.idxOf a = s.length := by
    intro s t hst
    have ha : a ∉ s := fun ha ↦
      (List.nodup_append.1 (hst ▸ hl)).2.2 a ha a List.mem_cons_self rfl
    rw [hst, List.idxOf_append, if_neg ha, List.idxOf_cons_self, Nat.zero_add]
  have hlen : pre.length = pre'.length := (hidx h).symm.trans (hidx h')
  exact (List.cons.inj (List.append_inj_right (h.symm.trans h') hlen)).2

/-- What replaces one entry of a list without repetitions depends on what stands behind it only. -/
theorem mem_withSurvivors_map_iff {l pre post : List InstrId} (marked : InstrId → Bool)
    (hl : l.Nodup) (h : l = pre ++ a :: post) :
    (a, b) ∈ (withSurvivors (l.map fun id ↦ (id, marked id))).2 ↔
      marked a = true ∧ post.find? (!marked ·) = some b := by
  rw [mem_withSurvivors_iff]
  constructor
  · rintro ⟨u, v, huv, hfind⟩
    obtain ⟨s, t, rfl, rfl, ht⟩ := List.map_eq_append_iff.1 huv
    obtain ⟨c, t, rfl, hc, rfl⟩ := List.map_eq_cons_iff.1 ht
    obtain ⟨rfl, hm⟩ := Prod.mk.inj hc
    rw [split_unique hl h rfl]
    rw [List.find?_map, Option.map_map] at hfind
    exact ⟨hm, by simpa [Function.comp_def] using hfind⟩
  · rintro ⟨hm, hfind⟩
    refine ⟨pre.map fun id ↦ (id, marked id), post.map fun id ↦ (id, marked id), ?_, ?_⟩
    · rw [h, List.map_append, List.map_cons, hm]
    · rw [List.find?_map, Option.map_map]
      simpa [Function.comp_def] using hfind

theorem marked_of_mem_withSurvivors {l : List InstrId} (marked : InstrId → Bool)
    (h : (a, b) ∈ (withSurvivors (l.map fun id ↦ (id, marked id))).2) :
    a ∈ l ∧ marked a = true ∧ marked b = false := by
  obtain ⟨u, v, huv, hfind⟩ := mem_withSurvivors_iff.1 h
  obtain ⟨s, t, rfl, rfl, ht⟩ := List.map_eq_append_iff.1 huv
  obtain ⟨c, t, rfl, hc, rfl⟩ := List.map_eq_cons_iff.1 ht
  obtain ⟨rfl, hm⟩ := Prod.mk.inj hc
  rw [List.find?_map, Option.map_map, Option.map_eq_some_iff] at hfind
  obtain ⟨d, hd, rfl⟩ := hfind
  exact ⟨by simp, hm, by simpa using List.find?_some hd⟩

/-- Whether an instruction is a skip that the predicate accepts. -/
def accepts (p : Program) (accept : InstrId → Instruction → Bool) (id : InstrId) : Bool :=
  (p.fetch id).isSkip && accept id (p.fetch id)

/-- The skips that are replaced, read off the order. -/
theorem replaceableSkips_eq : p.replaceableSkips accept =
    (withSurvivors (p.order.map fun id ↦ (id, p.accepts accept id))).2 := by
  rw [replaceableSkips, entries, List.map_map]
  rfl

/-- An accepted skip is replaced by the first instruction behind it that is none. -/
theorem mem_replaceableSkips_iff {pre post : List InstrId} (h : p.order = pre ++ a :: post) :
    (a, b) ∈ p.replaceableSkips accept ↔
      p.accepts accept a = true ∧ post.find? (!p.accepts accept ·) = some b := by
  rw [replaceableSkips_eq]
  exact mem_withSurvivors_map_iff (p.accepts accept) p.order_nodup h

theorem accepts_of_mem_replaceableSkips (h : (a, b) ∈ p.replaceableSkips accept) :
    a ∈ p.order ∧ p.accepts accept a = true ∧ p.accepts accept b = false := by
  rw [replaceableSkips_eq] at h
  exact marked_of_mem_withSurvivors _ h

theorem accept_of_mem_replaceableSkips (h : a ∈ (p.replaceableSkips accept).map Prod.fst) :
    accept a (p.fetch a) = true := by
  obtain ⟨⟨a, b⟩, hab, rfl⟩ := List.mem_map.1 h
  have haccepts := (accepts_of_mem_replaceableSkips hab).2.1
  rw [accepts, Bool.and_eq_true] at haccepts
  exact haccepts.2

/-- What takes the place of a skip is there, and stays. -/
theorem survivor_of_mem_replaceableSkips (h : (a, b) ∈ p.replaceableSkips accept) :
    b ∈ p.order ∧ b ∉ (p.replaceableSkips accept).map Prod.fst := by
  obtain ⟨ha, -, hb⟩ := accepts_of_mem_replaceableSkips h
  refine ⟨?_, fun hmem ↦ ?_⟩
  · obtain ⟨pre, post, horder⟩ := List.append_of_mem ha
    have hfind := ((mem_replaceableSkips_iff horder).1 h).2
    rw [horder]
    exact List.mem_append_right _ (List.mem_cons_of_mem _ (List.mem_of_find?_eq_some hfind))
  · obtain ⟨⟨b, c⟩, hbc, rfl⟩ := List.mem_map.1 hmem
    rw [(accepts_of_mem_replaceableSkips hbc).2.1] at hb
    cases hb

theorem map_fst_replaceableSkips_sublist :
    ((p.replaceableSkips accept).map Prod.fst).Sublist p.order := by
  have hsub := map_fst_withSurvivors_sublist (p.order.map fun id ↦ (id, p.accepts accept id))
  rw [replaceableSkips_eq]
  simpa only [List.map_map, Function.comp_def, List.map_id'] using hsub

theorem replaceableSkips_nodup : ((p.replaceableSkips accept).map Prod.fst).Nodup :=
  map_fst_replaceableSkips_sublist.nodup p.order_nodup

/-- No jump goes to a skip that is removed any more. -/
theorem replacement_notMem_replaceableSkips (t : InstrId) :
    replacement (p.replaceableSkips accept) t ∉ (p.replaceableSkips accept).map Prod.fst := by
  by_cases ht : t ∈ (p.replaceableSkips accept).map Prod.fst
  · obtain ⟨⟨t, b⟩, htb, rfl⟩ := List.mem_map.1 ht
    rw [replacement_of_mem replaceableSkips_nodup htb]
    exact (survivor_of_mem_replaceableSkips htb).2
  · rwa [replacement_of_notMem ht]

/-- If only instructions that were put in are taken out, fewer were put in. -/
theorem Splice.removeSkipsWhere {q : Program} {k : Nat} {new : List InstrId}
    (h : Splice p q k new) (accept : InstrId → Instruction → Bool)
    (haccept : ∀ a i, accept a i = true → a ∈ new) :
    Splice p (q.removeSkipsWhere accept).1 k
      (new.filter fun id ↦ id ∉ (q.replaceableSkips accept).map Prod.fst) := by
  have hold : ∀ ids : List InstrId, (∀ id ∈ ids, id ∈ p.order) →
      ids.filter (fun id ↦ id ∉ (q.replaceableSkips accept).map Prod.fst) = ids := by
    intro ids hids
    refine List.filter_eq_self.2 fun id hid ↦ decide_eq_true fun hmem ↦ ?_
    exact h.notMem_of_mem_new (haccept _ _ (accept_of_mem_replaceableSkips hmem)) (hids _ hid)
  refine ⟨h.le, ?_⟩
  rw [order_removeSkipsWhere, h.order, List.filter_append, List.filter_append,
    hold _ fun _ ↦ List.mem_of_mem_take, hold _ fun _ ↦ List.mem_of_mem_drop]

end Program

end LoopInduction
