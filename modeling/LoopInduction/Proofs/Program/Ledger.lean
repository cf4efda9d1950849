import LoopInduction.Program.Operation
import LoopInduction.Proofs.Program.Jumps

/-!
# Operations on a list

A `Ledger` is the list that a program stands for. A machine *follows* another if it gives the same
answers and the same faults from related states and ends in related ones (`Follows`). On the ledger
that keeps the entries of a program every operation follows the one on the program
(`Operation.follows_onLedger`): a position in program order splits the entries in two, and what is
put before or after an entry goes in between.

What an operation does to the ids is read off the ledger (`Operation.newIds_onLedger`).

## Main definitions

* `Follows` : the same outcomes from related states.
* `Ledger.Keeps` : the entries of a ledger are those of a program.

## Main results

* `Operation.follows_onLedger` : every operation acts on a program as on the list of its entries.
* `Operation.newIds_onLedger` : new ids are the next ones, and nothing else is ever listed.
-/

namespace LoopInduction

/-! ### Machines with the same outcomes -/

section Follows

variable {σ τ α β : Type} {R : σ → τ → Prop}

/-- The same outcome, and related states. -/
def SameOutcome (R : σ → τ → Prop) :
    EStateM.Result Fault σ α → EStateM.Result Fault τ α → Prop
  | .ok x s, .ok y t => x = y ∧ R s t
  | .error e s, .error f t => e = f ∧ R s t
  | _, _ => False

/-- From related states, the same outcome and related states. -/
def Follows (R : σ → τ → Prop) (x : EStateM Fault σ α) (y : EStateM Fault τ α) : Prop :=
  ∀ ⦃s t⦄, R s t → SameOutcome R (x.run s) (y.run t)

theorem Follows.pure (a : α) : Follows R (pure a) (pure a) := fun _ _ h ↦ ⟨rfl, h⟩

theorem Follows.bind {x : EStateM Fault σ α} {y : EStateM Fault τ α} {f : α → EStateM Fault σ β}
    {g : α → EStateM Fault τ β} (hxy : Follows R x y) (hfg : ∀ a, Follows R (f a) (g a)) :
    Follows R (x >>= f) (y >>= g) := by
  intro s t h
  have hrun := hxy h
  rw [EStateM.run_bind, EStateM.run_bind]
  cases hx : x.run s <;> cases hy : y.run t <;> rw [hx, hy] at hrun
  case ok.ok a s' b t' =>
    obtain ⟨rfl, h'⟩ := hrun
    exact hfg a h'
  case error.error => exact hrun
  all_goals exact hrun.elim

theorem Follows.mapM {f : β → EStateM Fault σ α} {g : β → EStateM Fault τ α}
    (hfg : ∀ b, Follows R (f b) (g b)) (bs : List β) : Follows R (bs.mapM f) (bs.mapM g) := by
  induction bs with
  | nil => exact .pure []
  | cons b bs ih =>
    rw [List.mapM_cons, List.mapM_cons]
    exact (hfg b).bind fun _ ↦ ih.bind fun _ ↦ .pure _

theorem Follows.exists_of_run_eq_ok {x : EStateM Fault σ α} {y : EStateM Fault τ α} {s : σ}
    {t t' : τ} {b : α} (h : Follows R x y) (hst : R s t) (hy : y.run t = .ok b t') :
    ∃ s', x.run s = .ok b s' ∧ R s' t' := by
  have hrun := h hst
  rw [hy] at hrun
  cases hx : x.run s with
  | error =>
    rw [hx] at hrun
    exact hrun.elim
  | ok a s' =>
    rw [hx] at hrun
    obtain ⟨rfl, h'⟩ := hrun
    exact ⟨s', rfl, h'⟩

end Follows

/-- Where only a guard can fail, failing changes nothing. -/
theorem eq_of_guarded_error {σ α : Type} {guard : EStateM Fault σ Unit} {x : EStateM Fault σ α}
    {fault : Fault} {s s' : σ}
    (hguard : guard.run s = .ok () s ∨ ∃ fault, guard.run s = .error fault s)
    (hx : guard.run s = .ok () s → ∀ fault s', x.run s ≠ .error fault s')
    (h : (guard >>= fun _ ↦ x).run s = .error fault s') : s' = s := by
  rw [EStateM.run_bind] at h
  rcases hguard with hrun | ⟨_, hrun⟩
  · rw [hrun] at h
    exact absurd h (hx hrun _ _)
  · rw [hrun] at h
    cases h
    rfl

namespace Edit

variable {p : Program} {id : InstrId}

theorem run_fetch_eq (id : InstrId) (p : Program) :
    (fetch id).run p =
      if id ∈ p.order then .ok (p.fetch id) p else .error (.notInProgram id) p := by
  by_cases h : id ∈ p.order
  · rw [if_pos h, run_fetch (Program.get?_eq_some_fetch h)]
  · have hget := Program.get?_eq_none_of_notMem h
    rw [if_neg h, fetch, run_ask_error (by rw [Program.instruction, hget])]

theorem run_discard_fetch (id : InstrId) (p : Program) :
    (discard (fetch id)).run p =
      if id ∈ p.order then .ok () p else .error (.notInProgram id) p := by
  rw [run_discard, run_fetch_eq]
  by_cases h : id ∈ p.order <;> simp only [h, if_true, if_false]

theorem run_remove (id : InstrId) (p : Program) :
    (remove id).run p =
      if id ∈ p.order then .ok (p.fetch id) (p.erase id) else .error (.notInProgram id) p := by
  rw [remove, EStateM.run_bind, run_fetch_eq]
  by_cases h : id ∈ p.order <;> simp only [h, if_true, if_false]
  rfl

end Edit

/-- Machines that ask for an instruction first need to be compared where it is there. -/
theorem Follows.guarded {σ α : Type} {R : σ → Program → Prop} {id : InstrId}
    {guard : EStateM Fault σ Unit} {x : EStateM Fault σ α} {e : Edit α}
    (hguard : ∀ s p, R s p →
      guard.run s = if id ∈ p.order then .ok () s else .error (.notInProgram id) s)
    (hx : ∀ s p, R s p → id ∈ p.order → SameOutcome R (x.run s) (e.run p)) :
    Follows R (guard >>= fun _ ↦ x) (discard (Edit.fetch id) >>= fun _ ↦ e) := by
  intro s p h
  rw [EStateM.run_bind, EStateM.run_bind, hguard s p h, Edit.run_discard_fetch]
  by_cases hid : id ∈ p.order
  · rw [if_pos hid, if_pos hid]
    exact hx s p h hid
  · rw [if_neg hid, if_neg hid]
    exact ⟨rfl, h⟩

/-! ### Programs follow ledgers -/

namespace Program

variable {p : Program} {id : InstrId}

/-- The entries around one of them. -/
theorem exists_entries_eq (h : id ∈ p.order) : ∃ pre post,
    p.entries = pre ++ (id, p.fetch id) :: post ∧ pre.length = p.position id := by
  obtain ⟨pre, post, horder⟩ := List.append_of_mem h
  refine ⟨pre.map fun x ↦ (x, p.fetch x), post.map fun x ↦ (x, p.fetch x), ?_, ?_⟩
  · rw [entries, horder, List.map_append, List.map_cons]
  · rw [List.length_map, position_eq_length horder]

theorem freshIds_one : p.freshIds 1 = [p.fresh] := rfl

/-- New instructions stand in front of the one at their position. -/
theorem entries_insertAllAt {k : Nat} (hk : k ≤ p.order.length) (is : List Instruction) :
    (p.insertAllAt k is).entries =
      p.entries.take k ++ (p.freshIds is.length).zip is ++ p.entries.drop k := by
  induction is generalizing p k with
  | nil => simp [insertAllAt, freshIds]
  | cons i is ih =>
    have hlength : p.entries.length = p.order.length := length_entries
    have htake : (p.entries.take k).length = k := by rw [List.length_take]; omega
    have hold : (p.insertAt k i).entries =
        (p.entries.take k ++ [(p.fresh, i)]) ++ p.entries.drop k := by
      rw [entries_insertAt, List.append_assoc, List.singleton_append]
    rw [insertAllAt, ih (by simp; omega), hold, List.take_left' (by simp [htake]),
      List.drop_left' (by simp [htake]), List.length_cons, freshIds_succ (k := k) (i := i),
      List.zip_cons_cons, List.append_assoc, List.append_assoc, List.append_assoc]
    rfl

theorem lookup_entries (id : InstrId) : p.entries.lookup id = p.get? id := by
  by_cases h : id ∈ p.order
  · rw [entries, List.lookup_graph _ h, get?_eq_some_fetch h]
  · rw [get?_eq_none_of_notMem h, List.lookup_eq_none_iff]
    intro e he
    simpa using fun hid : id = e.1 ↦ h (hid ▸ map_fst_entries (p := p) ▸ List.mem_map_of_mem he)

theorem snd_redirectTargets {old new : InstrId} {accept : InstrId → Bool} :
    (p.redirectTargets old new accept).2 =
      p.entries.countP fun e ↦ old ∈ e.2.targets && accept e.1 := by
  rw [redirectTargets, jumpSources, List.filter_map, List.length_map, List.filter_filter,
    ← List.countP_eq_length_filter]
  simp [Bool.and_comm]

end Program

namespace Ledger

variable {l : Ledger} {p : Program} {e : InstrId × Instruction} {pre post new : Listing}

/-- An entry that is listed once is replaced by others. -/
private theorem flatMap_append_cons {f : InstrId × Instruction → Listing}
    (h : (Listing.ids (pre ++ e :: post)).Nodup) :
    (pre ++ e :: post).flatMap (fun x ↦ if x.1 = e.1 then f x else [x]) = pre ++ f e ++ post := by
  have hothers : ∀ l : Listing, (∀ x ∈ l, x.1 ≠ e.1) →
      l.flatMap (fun x ↦ if x.1 = e.1 then f x else [x]) = l := by
    intro l hl
    rw [List.flatMap_congr fun x hx ↦ if_neg (hl x hx), List.flatMap_singleton']
  have hne : ∀ x ∈ pre ++ post, x.1 ≠ e.1 := by
    intro x hx hxe
    rw [Listing.ids, List.map_append, List.map_cons, List.nodup_middle, ← List.map_append] at h
    exact h.notMem (hxe ▸ List.mem_map_of_mem hx)
  rw [List.flatMap_append, List.flatMap_cons, if_pos rfl,
    hothers pre fun x hx ↦ hne x (List.mem_append_left _ hx),
    hothers post fun x hx ↦ hne x (List.mem_append_right _ hx), List.append_assoc]

theorem putBefore_append_cons (h : (Listing.ids (pre ++ e :: post)).Nodup) :
    putBefore e.1 new (pre ++ e :: post) = pre ++ new ++ e :: post := by
  rw [putBefore, flatMap_append_cons h]
  simp

theorem putAfter_append_cons (h : (Listing.ids (pre ++ e :: post)).Nodup) :
    putAfter e.1 new (pre ++ e :: post) = pre ++ e :: new ++ post :=
  flatMap_append_cons h

/-- A ledger keeps a program: it has its entries, and as many ids were given as there are slots. -/
structure Keeps (l : Ledger) (p : Program) : Prop where
  given : l.given = p.slots.size
  entries : l.entries = p.entries

theorem Keeps.ids (h : l.Keeps p) : l.entries.ids = p.order := by
  rw [h.entries, Listing.ids, Program.map_fst_entries]

theorem run_requireListed (id : InstrId) (l : Ledger) (p : Program) (h : l.Keeps p) :
    (requireListed id).run l =
      if id ∈ p.order then .ok () l else .error (.notInProgram id) l := by
  rw [← h.ids]
  rfl

/-- New entries in the place of new instructions. -/
theorem Keeps.add (h : l.Keeps p) {k : Nat} (hk : k ≤ p.order.length) {is : List Instruction}
    {place : Listing → Listing → Listing}
    (hplace : ∀ new, place new p.entries = p.entries.take k ++ new ++ p.entries.drop k) :
    ∃ l' : Ledger, (Ledger.add is place).run l = .ok (p.freshIds is.length) l' ∧
      l'.Keeps (p.insertAllAt k is) := by
  have hids : (List.range is.length).map (fun j ↦ (⟨l.given + j⟩ : InstrId)) =
      p.freshIds is.length := by rw [h.given, Program.freshIds]
  refine ⟨⟨l.given + is.length, place ((p.freshIds is.length).zip is) p.entries⟩, ?_, ?_, ?_⟩
  · rw [← hids, ← h.entries]
    rfl
  · show l.given + is.length = _
    rw [h.given, Program.size_slots_insertAllAt]
  · rw [Program.entries_insertAllAt hk, hplace]

theorem Keeps.add_before (h : l.Keeps p) {anchor : InstrId} (hanchor : anchor ∈ p.order)
    (is : List Instruction) :
    ∃ l' : Ledger, (Ledger.add is (putBefore anchor)).run l = .ok (p.freshIds is.length) l' ∧
      l'.Keeps (p.insertAllAt (p.position anchor) is) := by
  obtain ⟨pre, post, hentries, hlength⟩ := Program.exists_entries_eq hanchor
  have hnodup : (Listing.ids p.entries).Nodup := Program.entries_nodup
  refine h.add (Nat.le_of_lt (Program.position_lt_iff.2 hanchor)) fun new ↦ ?_
  rw [hentries] at hnodup ⊢
  rw [putBefore_append_cons hnodup, List.take_left' hlength, List.drop_left' hlength]

theorem Keeps.add_after (h : l.Keeps p) {anchor : InstrId} (hanchor : anchor ∈ p.order)
    (is : List Instruction) :
    ∃ l' : Ledger, (Ledger.add is (putAfter anchor)).run l = .ok (p.freshIds is.length) l' ∧
      l'.Keeps (p.insertAllAt (p.position anchor + 1) is) := by
  obtain ⟨pre, post, hentries, hlength⟩ := Program.exists_entries_eq hanchor
  have hnodup : (Listing.ids p.entries).Nodup := Program.entries_nodup
  refine h.add (Program.position_lt_iff.2 hanchor) fun new ↦ ?_
  rw [hentries] at hnodup ⊢
  have hcons : pre ++ (anchor, p.fetch anchor) :: post =
      (pre ++ [(anchor, p.fetch anchor)]) ++ post := List.append_cons ..
  have hlength' : (pre ++ [(anchor, p.fetch anchor)]).length = p.position anchor + 1 := by
    rw [List.length_append, hlength]
    rfl
  rw [putAfter_append_cons hnodup, hcons, List.take_left' hlength', List.drop_left' hlength']
  simp

theorem Keeps.add_last (h : l.Keeps p) (is : List Instruction) :
    ∃ l' : Ledger, (Ledger.add is putLast).run l = .ok (p.freshIds is.length) l' ∧
      l'.Keeps (p.insertAllAt p.size is) := by
  refine h.add (Nat.le_refl _) fun new ↦ ?_
  rw [← Program.size, ← Program.length_entries, List.take_length, List.drop_length,
    List.append_nil, putLast]

/-- Replacing the entries one by one is changing the instructions in their places. -/
theorem Keeps.map (h : l.Keeps p) {f : InstrId → Instruction → Instruction}
    {g : InstrId × Instruction → InstrId × Instruction}
    (hfg : ∀ e ∈ p.entries, g e = (e.1, f e.1 e.2)) :
    Keeps ⟨l.given, l.entries.map g⟩ (p.map f) where
  given := by
    rw [h.given]
    simp [Program.map]
  entries := by
    rw [h.entries, Program.entries_map]
    exact List.map_congr_left hfg

theorem requireListed_cases (id : InstrId) (l : Ledger) :
    (requireListed id).run l = .ok () l ∨ ∃ fault, (requireListed id).run l = .error fault l := by
  by_cases hid : id ∈ l.entries.ids
  · exact .inl (if_pos hid)
  · exact .inr ⟨_, if_neg hid⟩

/-- What is done with an id is done only where the id is listed. -/
theorem listed_of_run {α : Type} {id : InstrId} {x : Ledger.Change α} {a : α} {l' : Ledger}
    (h : (requireListed id >>= fun _ ↦ x).run l = .ok a l') :
    id ∈ l.entries.ids ∧ x.run l = .ok a l' := by
  by_cases hid : id ∈ l.entries.ids
  · have hguard : (requireListed id).run l = .ok () l := if_pos hid
    rw [EStateM.run_bind, hguard] at h
    exact ⟨hid, h⟩
  · have hguard : (requireListed id).run l = .error (.notInProgram id) l := if_neg hid
    rw [EStateM.run_bind, hguard] at h
    cases h

theorem mem_putBefore {anchor : InstrId} {old : Listing} (h : e ∈ putBefore anchor new old) :
    e ∈ old ∨ e ∈ new := by
  obtain ⟨x, hx, he⟩ := List.mem_flatMap.1 h
  split at he
  · rcases List.mem_append.1 he with he | he
    · exact .inr he
    · exact .inl (List.mem_singleton.1 he ▸ hx)
  · exact .inl (List.mem_singleton.1 he ▸ hx)

theorem mem_putAfter {anchor : InstrId} {old : Listing} (h : e ∈ putAfter anchor new old) :
    e ∈ old ∨ e ∈ new := by
  obtain ⟨x, hx, he⟩ := List.mem_flatMap.1 h
  split at he
  · rcases List.mem_cons.1 he with rfl | he
    · exact .inl hx
    · exact .inr he
  · exact .inl (List.mem_singleton.1 he ▸ hx)

theorem mem_of_mem_map {old : Listing} {g : InstrId × Instruction → InstrId × Instruction}
    {id : InstrId} (h : id ∈ Listing.ids (old.map g)) (hg : ∀ e, (g e).1 = e.1) : id ∈ old.ids := by
  obtain ⟨_, he, rfl⟩ := List.mem_map.1 h
  obtain ⟨e, hmem, rfl⟩ := List.mem_map.1 he
  rw [hg]
  exact List.mem_map_of_mem hmem

/-- Entries that are put somewhere have the next ids. -/
theorem newIds_add {is : List Instruction} {place : Listing → Listing → Listing}
    (hplace : ∀ new old, ∀ e ∈ place new old, e ∈ old ∨ e ∈ new) :
    let ids := (List.range is.length).map fun k ↦ (⟨l.given + k⟩ : InstrId)
    ∃ n, l.given + is.length = l.given + n ∧
      (Answer.ids ids).newIds = (List.range n).map (fun k ↦ ⟨l.given + k⟩) ∧
      ∀ id ∈ Listing.ids (place (ids.zip is) l.entries),
        id ∈ l.entries.ids ∨ id ∈ (Answer.ids ids).newIds := by
  intro ids
  refine ⟨is.length, rfl, rfl, fun id hid ↦ ?_⟩
  obtain ⟨e, he, rfl⟩ := List.mem_map.1 hid
  rcases hplace _ _ e he with he | he
  · exact .inl (List.mem_map_of_mem he)
  · exact .inr (List.of_mem_zip he).1

theorem Keeps.redirectTargets (h : l.Keeps p) (old new : InstrId) (accept : InstrId → Bool) :
    Keeps ⟨l.given, l.entries.map fun e ↦ if accept e.1 then (e.1, e.2.redirect old new) else e⟩
      (p.redirectTargets old new accept).1 := by
  show Keeps _ (p.map fun id i ↦
    if id ∈ (p.jumpSources old).filter accept then i.redirect old new else i)
  refine h.map fun e he ↦ ?_
  have htargets : e.1 ∈ p.jumpSources old ↔ old ∈ e.2.targets := by
    rw [Program.mem_jumpSources_iff, Program.fetch_eq (Program.mem_entries_iff.1 he)]
  simp only [List.mem_filter, htargets]
  by_cases haccept : accept e.1 = true
  · by_cases hold : old ∈ e.2.targets
    · simp [haccept, hold]
    · simp [haccept, hold, Instruction.redirect_of_notMem hold]
  · simp [haccept]

end Ledger

namespace Operation

theorem follows_onLedger (op : Operation) : Follows Ledger.Keeps op.onLedger op.onProgram := by
  cases op with
  | push i =>
    intro l p h
    obtain ⟨l', hrun, hkeeps⟩ := h.add_last [i]
    rw [onLedger, EStateM.run_bind, hrun]
    exact ⟨congrArg Answer.ids Program.freshIds_one, hkeeps⟩
  | insertBefore anchor i =>
    rw [onProgram, Edit.insertBefore, bind_assoc]
    refine .guarded (Ledger.run_requireListed anchor) fun l p h hanchor ↦ ?_
    obtain ⟨l', hrun, hkeeps⟩ := h.add_before hanchor [i]
    rw [EStateM.run_bind, hrun]
    exact ⟨congrArg Answer.ids Program.freshIds_one, hkeeps⟩
  | insertAfter anchor i =>
    rw [onProgram, Edit.insertAfter, bind_assoc]
    refine .guarded (Ledger.run_requireListed anchor) fun l p h hanchor ↦ ?_
    obtain ⟨l', hrun, hkeeps⟩ := h.add_after hanchor [i]
    rw [EStateM.run_bind, hrun]
    exact ⟨congrArg Answer.ids Program.freshIds_one, hkeeps⟩
  | insertAllBefore anchor is =>
    rw [onProgram, Edit.insertAllBefore, bind_assoc]
    refine .guarded (Ledger.run_requireListed anchor) fun l p h hanchor ↦ ?_
    obtain ⟨l', hrun, hkeeps⟩ := h.add_before hanchor is
    rw [EStateM.run_bind, hrun, EStateM.run_bind, Edit.run_mapM_insertBefore hanchor]
    exact ⟨rfl, hkeeps⟩
  | remove id =>
    intro l p h
    rw [onProgram, onLedger, EStateM.run_bind, EStateM.run_bind, Ledger.run_requireListed id l p h,
      Edit.run_remove]
    by_cases hid : id ∈ p.order
    · rw [if_pos hid, if_pos hid]
      have hlookup : (l.entries.lookup id).getD .skip = p.fetch id := by
        rw [h.entries, Program.lookup_entries, Program.fetch]
      refine ⟨congrArg Answer.instruction hlookup, ?_, ?_⟩
      · show l.given = (p.slots.setIfInBounds id.index none).size
        rw [Array.size_setIfInBounds, h.given]
      · rw [Program.entries_erase, ← h.entries]
    · rw [if_neg hid, if_neg hid]
      exact ⟨rfl, h⟩
  | redirectTargets old new accept =>
    intro l p h
    refine ⟨congrArg Answer.count ?_, h.redirectTargets old new accept⟩
    rw [h.entries]
    exact Program.snd_redirectTargets.symm
  | change id f =>
    rw [onProgram, Edit.change, bind_assoc]
    refine .guarded (Ledger.run_requireListed id) fun l p h _ ↦ ⟨rfl, h.map fun e _ ↦ ?_⟩
    split <;> rfl

/-- An operation lists nothing but what was listed and its new ids, and these are the next ones. -/
theorem newIds_onLedger {op : Operation} {l l' : Ledger} {answer : Answer}
    (h : op.onLedger.run l = .ok answer l') :
    ∃ n, l'.given = l.given + n ∧
      answer.newIds = (List.range n).map (fun k ↦ ⟨l.given + k⟩) ∧
      ∀ id ∈ l'.entries.ids, id ∈ l.entries.ids ∨ id ∈ answer.newIds := by
  cases op with
  | push i =>
    cases h
    exact Ledger.newIds_add fun _ _ _ he ↦ (List.mem_append.1 he)
  | insertBefore anchor i =>
    obtain ⟨-, h⟩ := Ledger.listed_of_run h
    cases h
    exact Ledger.newIds_add fun _ _ _ ↦ Ledger.mem_putBefore
  | insertAfter anchor i =>
    obtain ⟨-, h⟩ := Ledger.listed_of_run h
    cases h
    exact Ledger.newIds_add fun _ _ _ ↦ Ledger.mem_putAfter
  | insertAllBefore anchor is =>
    obtain ⟨-, h⟩ := Ledger.listed_of_run h
    cases h
    exact Ledger.newIds_add fun _ _ _ ↦ Ledger.mem_putBefore
  | remove id =>
    obtain ⟨-, h⟩ := Ledger.listed_of_run h
    cases h
    refine ⟨0, rfl, rfl, fun x hx ↦ .inl ?_⟩
    exact (List.filter_sublist.map Prod.fst).subset hx
  | redirectTargets old new accept =>
    cases h
    exact ⟨0, rfl, rfl, fun x hx ↦ .inl (Ledger.mem_of_mem_map hx fun e ↦ by split <;> rfl)⟩
  | change id f =>
    obtain ⟨-, h⟩ := Ledger.listed_of_run h
    cases h
    exact ⟨0, rfl, rfl, fun x hx ↦ .inl (Ledger.mem_of_mem_map hx fun e ↦ by split <;> rfl)⟩

/-- An operation that fails changes nothing. -/
theorem eq_of_onLedger_error {op : Operation} {l l' : Ledger} {fault : Fault}
    (h : op.onLedger.run l = .error fault l') : l' = l := by
  cases op with
  | push | redirectTargets => cases h
  | insertBefore | insertAfter | insertAllBefore | remove | change =>
    exact eq_of_guarded_error (Ledger.requireListed_cases _ l) (fun _ _ _ h ↦ by cases h) h

end Operation

end LoopInduction
