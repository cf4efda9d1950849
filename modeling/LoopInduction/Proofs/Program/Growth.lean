import LoopInduction.Proofs.Program.Extension
import LoopInduction.Proofs.Program.Skips

/-!
# Programs that grow

A program is *sound* if every target of every instruction is an instruction of it and no target is
listed twice. Most changes that a transformation makes put generated instructions in and rewrite
target lists, and keep a sound program sound: the program *grows*. Growing is a preorder, and every
single change is a case of it: `grows_insertAllAt`, `grows_redirectTargets`,
`grows_update_targets`, `grows_update_redirect`, and `Grows.removeSkipsWhere` where skips are taken
out that were put in before.

## Main definitions

* `Program.SoundTargets`, `Program.Sound` : targets that are there and listed once.
* `Program.Grows` : generated instructions are put in and targets rewritten, nothing else.
-/

namespace LoopInduction

namespace Program

variable {p q r : Program} {ts : List InstrId} {is : List Instruction} {i : Instruction}
  {id old new : InstrId} {k : Nat}

/-! ### Sound targets -/

/-- All the targets are instructions of the program, and none is listed twice. -/
structure SoundTargets (p : Program) (ts : List InstrId) : Prop where
  live : ∀ t ∈ ts, t ∈ p.order
  nodup : ts.Nodup

/-- The targets of every instruction are sound. -/
def Sound (p : Program) : Prop :=
  ∀ id ∈ p.order, p.SoundTargets (p.fetch id).targets

instance : Decidable (p.SoundTargets ts) :=
  decidable_of_iff ((∀ t ∈ ts, t ∈ p.order) ∧ ts.Nodup)
    ⟨fun ⟨hl, hn⟩ ↦ ⟨hl, hn⟩, fun h ↦ ⟨h.live, h.nodup⟩⟩

instance : Decidable p.Sound :=
  inferInstanceAs (Decidable (∀ id ∈ p.order, _))

theorem soundTargets_nil : p.SoundTargets [] :=
  ⟨by simp, List.nodup_nil⟩

theorem soundTargets_singleton (h : id ∈ p.order) : p.SoundTargets [id] :=
  ⟨by simpa using h, List.nodup_singleton id⟩

theorem SoundTargets.of_sublist (h : p.SoundTargets ts) (hsub : p.order.Sublist q.order) :
    q.SoundTargets ts :=
  ⟨fun t ht ↦ hsub.subset (h.live t ht), h.nodup⟩

theorem SoundTargets.redirect (h : p.SoundTargets i.targets) (hnew : new ∈ p.order) :
    p.SoundTargets (i.redirect old new).targets where
  live t ht := by
    obtain ⟨u, hu, rfl⟩ := Instruction.mem_targets_redirect.1 ht
    split
    · exact hnew
    · exact h.live u hu
  nodup := by
    unfold Instruction.redirect
    split
    · exact nodup_eraseDups _
    · exact h.nodup

theorem SoundTargets.redirectAll {replaced : List (InstrId × InstrId)}
    (h : p.SoundTargets i.targets) (hnew : ∀ s ∈ replaced, s.2 ∈ p.order) :
    p.SoundTargets (i.redirectAll replaced).targets := by
  induction replaced generalizing i with
  | nil => exact h
  | cons s replaced ih =>
    rw [Instruction.redirectAll_cons]
    exact ih (h.redirect (hnew s List.mem_cons_self)) fun s' hs' ↦
      hnew s' (List.mem_cons_of_mem _ hs')

theorem Sound.targetsLive (h : p.Sound) : p.TargetsLive := fun id _ hi t ht ↦
  (h id (mem_of_get? hi)).live t (fetch_eq hi ▸ ht)

/-- Removing skips leaves no jump without a place to go to. -/
theorem Sound.removeSkipsWhere (h : p.Sound) (accept : InstrId → Instruction → Bool) :
    (p.removeSkipsWhere accept).1.Sound := by
  intro id hid
  rw [order_removeSkipsWhere, List.mem_filter, decide_eq_true_eq] at hid
  have hget : (p.removeSkipsWhere accept).1.get? id =
      some ((p.fetch id).redirectAll (p.replaceableSkips accept)) := by
    rw [get?_removeSkipsWhere, if_neg hid.2, get?_eq_some_fetch hid.1, Option.map_some]
  rw [fetch_eq hget]
  have htargets : p.SoundTargets ((p.fetch id).redirectAll (p.replaceableSkips accept)).targets :=
    (h id hid.1).redirectAll fun s hs ↦ (survivor_of_mem_replaceableSkips hs).1
  refine ⟨fun t ht ↦ ?_, htargets.nodup⟩
  rw [order_removeSkipsWhere, List.mem_filter, decide_eq_true_eq]
  refine ⟨htargets.live t ht, ?_⟩
  obtain ⟨u, -, rfl⟩ := (Instruction.mem_targets_redirectAll
    fun s hs ↦ (survivor_of_mem_replaceableSkips hs).2).1 ht
  exact replacement_notMem_replaceableSkips u

/-! ### Growing -/

/-- Generated instructions were put in and targets rewritten, and targets that were sound are so
still. -/
structure Grows (p q : Program) : Prop where
  sublist : p.order.Sublist q.order
  old : ∀ id ∈ p.order, ∃ ts, q.fetch id = { p.fetch id with targets := ts }
  added : ∀ id ∈ q.order, id ∉ p.order → (q.fetch id).origin ≠ .source
  sound : p.Sound → q.Sound

namespace Grows

theorem refl (p : Program) : p.Grows p where
  sublist := .refl _
  old id _ := ⟨(p.fetch id).targets, rfl⟩
  added _ h h' := absurd h h'
  sound := id

theorem mem (h : p.Grows q) (hid : id ∈ p.order) : id ∈ q.order :=
  h.sublist.subset hid

theorem extension (h : p.Grows q) : p.Extends q where
  sublist := h.sublist
  retained id hid := by
    obtain ⟨ts, hts⟩ := h.old id hid
    rw [hts]
    exact .with_targets _ ts
  added := h.added

theorem trans (h : p.Grows q) (h' : q.Grows r) : p.Grows r where
  sublist := h.sublist.trans h'.sublist
  old id hid := by
    obtain ⟨ts, hts⟩ := h.old id hid
    obtain ⟨ts', hts'⟩ := h'.old id (h.mem hid)
    exact ⟨ts', by rw [hts', hts]⟩
  added := (h.extension.trans h'.extension).added
  sound hp := h'.sound (h.sound hp)

end Grows

/-! ### Single changes -/

/-- Rewriting targets in place. -/
theorem grows_map {f : InstrId → Instruction → Instruction}
    (hf : ∀ id i, ∃ ts, f id i = { i with targets := ts } ∧
      (p.SoundTargets i.targets → p.SoundTargets ts)) : p.Grows (p.map f) := by
  have hfetch : ∀ id ∈ p.order, (p.map f).fetch id = f id (p.fetch id) := fun id hid ↦
    fetch_eq (by rw [get?_map, get?_eq_some_fetch hid, Option.map_some])
  refine ⟨.refl _, fun id hid ↦ ?_, fun id hid hp ↦ absurd hid hp, fun hp id hid ↦ ?_⟩
  · obtain ⟨ts, hts, -⟩ := hf id (p.fetch id)
    exact ⟨ts, (hfetch id hid).trans hts⟩
  · obtain ⟨ts, hts, hsound⟩ := hf id (p.fetch id)
    rw [hfetch id hid, hts]
    exact (hsound (hp id hid)).of_sublist (.refl _)

private theorem grows_map_redirect (hnew : new ∈ p.order) (c : InstrId → Prop) [DecidablePred c] :
    p.Grows (p.map fun id i ↦ if c id then i.redirect old new else i) := by
  refine grows_map fun id i ↦ ?_
  split
  · exact ⟨_, Instruction.redirect_eq_with, fun hi ↦ hi.redirect hnew⟩
  · exact ⟨_, rfl, fun hi ↦ hi⟩

theorem grows_redirectTargets (hnew : new ∈ p.order) (accept : InstrId → Bool) :
    p.Grows (p.redirectTargets old new accept).1 :=
  grows_map_redirect hnew _

theorem grows_update_redirect (old : InstrId) (hnew : new ∈ p.order) (id : InstrId) :
    p.Grows (p.update id (·.redirect old new)) :=
  grows_map_redirect hnew _

theorem grows_update_targets (hts : p.SoundTargets ts) (id : InstrId) :
    p.Grows (p.update id ({ · with targets := ts })) := by
  refine grows_map fun id' i ↦ ?_
  split
  · exact ⟨ts, rfl, fun _ ↦ hts⟩
  · exact ⟨_, rfl, fun hi ↦ hi⟩

/-- Putting in generated instructions whose targets are there. -/
theorem grows_insertAllAt (is : List Instruction) (hk : k ≤ p.order.length)
    (his : ∀ i ∈ is, i.origin ≠ .source ∧ (p.Sound → p.SoundTargets i.targets)) :
    p.Grows (p.insertAllAt k is) := by
  have hsplice := splice_insertAllAt is hk
  have hold : ∀ id ∈ p.order, (p.insertAllAt k is).fetch id = p.fetch id := fun id hid ↦ by
    rw [fetch, get?_insertAllAt_of_mem hid, fetch]
  have hnew : ∀ id ∈ (p.insertAllAt k is).order, id ∉ p.order →
      (p.insertAllAt k is).fetch id ∈ is := by
    intro id hid hp
    obtain ⟨j, hj, rfl⟩ := List.mem_map.1 ((hsplice.mem_iff.1 hid).resolve_left hp)
    rw [List.mem_range] at hj
    rw [fetch_eq (by rw [get?_insertAllAt_fresh, List.getElem?_eq_getElem hj])]
    exact List.getElem_mem hj
  refine ⟨hsplice.sublist, fun id hid ↦ ⟨_, hold id hid⟩,
    fun id hid hp ↦ (his _ (hnew id hid hp)).1, fun hp id hid ↦ ?_⟩
  by_cases hid' : id ∈ p.order
  · rw [hold id hid']
    exact (hp id hid').of_sublist hsplice.sublist
  · exact ((his _ (hnew id hid hid')).2 hp).of_sublist hsplice.sublist

/-- Taking out skips that were put in leaves the program grown. -/
theorem Grows.removeSkipsWhere (h : p.Grows q) {accept : InstrId → Instruction → Bool}
    (haccept : ∀ a i, accept a i = true → a ∉ p.order) :
    p.Grows (q.removeSkipsWhere accept).1 := by
  have hget : ∀ id ∈ q.order, id ∉ (q.replaceableSkips accept).map Prod.fst →
      (q.removeSkipsWhere accept).1.fetch id =
        (q.fetch id).redirectAll (q.replaceableSkips accept) := fun id hid hstays ↦
    fetch_eq (by rw [get?_removeSkipsWhere, if_neg hstays, get?_eq_some_fetch hid, Option.map_some])
  have hold : ∀ id ∈ p.order, id ∉ (q.replaceableSkips accept).map Prod.fst := fun id hid hmem ↦
    haccept _ _ (accept_of_mem_replaceableSkips hmem) hid
  refine ⟨?_, fun id hid ↦ ?_, fun id hid hp ↦ ?_, fun hp ↦ (h.sound hp).removeSkipsWhere accept⟩
  · rw [order_removeSkipsWhere]
    have hfilter : p.order.filter (fun id ↦ id ∉ (q.replaceableSkips accept).map Prod.fst) =
        p.order := List.filter_eq_self.2 fun id hid ↦ decide_eq_true (hold id hid)
    rw [← hfilter]
    exact h.sublist.filter _
  · obtain ⟨ts, hts⟩ := h.old id hid
    refine ⟨((q.fetch id).redirectAll (q.replaceableSkips accept)).targets, ?_⟩
    rw [hget id (h.mem hid) (hold id hid), Instruction.redirectAll_eq_with, hts]
  · rw [order_removeSkipsWhere, List.mem_filter, decide_eq_true_eq] at hid
    rw [hget id hid.1 hid.2, Instruction.redirectAll_eq_with]
    exact h.added id hid.1 hp

end Program

end LoopInduction
