import LoopInduction.Proofs.Program.Arena
import LoopInduction.Proofs.Program.Ledger

/-!
# Every history of a program is one of a list

Every operation on an arena follows the one on the program that it links
(`Operation.follows_onArena`), as every operation on the list of the entries does
(`Operation.follows_onLedger`). What single operations do carries over to whole histories
(`Operation.history_follows`), so an arena is as good as a list (`Operation.history_refines_list`).

The ids that a history gives are the next ones (`Operation.newIds_history`). So none is given twice,
and one that is not listed any more is never listed again.

## Main definitions

* `Operation.Started` : a program and an arena without instructions, or from one listing.
* `Operation.RefinesList` : what holds of an arena and a program after a history.

## Main results

* `Operation.history_refines_list` : after every history the answers are those of a list.
-/

namespace LoopInduction

/-! ### Arenas follow programs -/

namespace Program

/-- A program answers as the list of its entries does. -/
theorem view_eq (p : Program) : p.view = Listing.view p.entries := by
  have hids : Listing.ids p.entries = p.order := map_fst_entries
  have hempty : p.entries.isEmpty = p.order.isEmpty := by rw [entries, List.isEmpty_map]
  have hcontains (id : InstrId) : p.contains id = decide (id ∈ p.order) := by
    rw [Bool.eq_iff_iff, contains_iff, decide_eq_true_eq]
  have hprev : p.prev? = successor? p.order.reverse := funext fun _ ↦ prev?_eq_successor?
  rw [view, Listing.view, hids, hempty, length_entries, funext hcontains, hprev,
    funext (lookup_entries (p := p))]
  rfl

end Program

namespace Arena.Change

variable {a : Arena} {p : Program} {anchor id : InstrId} {i : Instruction}

theorem run_requireLive (id : InstrId) (a : Arena) (p : Program) (h : a.Links p) :
    (requireLive id).run a =
      if id ∈ p.order then .ok () a else .error (.notInProgram id) a := by
  have hcontains : a.contains id = true ↔ id ∈ p.order := by
    rw [h.contains, Program.contains_iff]
  simp only [← hcontains]
  rfl

theorem requireLive_cases (id : InstrId) (a : Arena) :
    (requireLive id).run a = .ok () a ∨ ∃ fault, (requireLive id).run a = .error fault a := by
  by_cases hid : a.contains id = true
  · exact .inl (if_pos hid)
  · exact .inr ⟨_, if_neg hid⟩

theorem push_follows (i : Instruction) : Follows Links (push i) (Edit.push i) := fun _ _ h ↦
  ⟨h.fresh, h.linked_last i⟩

theorem insertBefore_follows (anchor : InstrId) (i : Instruction) :
    Follows Links (insertBefore anchor i) (Edit.insertBefore anchor i) :=
  .guarded (run_requireLive anchor) fun _ _ h hanchor ↦ ⟨h.fresh, h.linked_before hanchor i⟩

theorem insertAfter_follows (anchor : InstrId) (i : Instruction) :
    Follows Links (insertAfter anchor i) (Edit.insertAfter anchor i) :=
  .guarded (run_requireLive anchor) fun _ _ h hanchor ↦ ⟨h.fresh, h.linked_after hanchor i⟩

theorem insertAllBefore_follows (anchor : InstrId) (is : List Instruction) :
    Follows Links (insertAllBefore anchor is) (Edit.insertAllBefore anchor is) :=
  .guarded (run_requireLive anchor) fun _ _ h _ ↦
    Follows.mapM (insertBefore_follows anchor) is h

theorem remove_follows (id : InstrId) : Follows Links (remove id) (Edit.remove id) := by
  intro a p h
  rw [remove, EStateM.run_bind, run_requireLive id a p h, Edit.run_remove]
  by_cases hid : id ∈ p.order
  · rw [if_pos hid, if_pos hid]
    exact ⟨h.fetch id, h.unlinked hid⟩
  · rw [if_neg hid, if_neg hid]
    exact ⟨rfl, h⟩

theorem redirectTargets_follows (old new : InstrId) (accept : InstrId → Bool) :
    Follows Links (redirectTargets old new accept)
      (Edit.always (·.redirectTargets old new accept)) := fun _ _ h ↦
  (h.redirectTargets old new accept).symm

theorem change_follows (id : InstrId) (f : Instruction → Instruction) :
    Follows Links (change id f) (Edit.change id f) :=
  .guarded (run_requireLive id) fun _ _ h _ ↦ ⟨rfl, h.alter id f⟩

end Arena.Change

namespace Operation

theorem follows_onArena (op : Operation) : Follows Arena.Links op.onArena op.onProgram := by
  cases op with
  | push i => exact (Arena.Change.push_follows i).bind fun _ ↦ .pure _
  | insertBefore anchor i =>
    exact (Arena.Change.insertBefore_follows anchor i).bind fun _ ↦ .pure _
  | insertAfter anchor i => exact (Arena.Change.insertAfter_follows anchor i).bind fun _ ↦ .pure _
  | insertAllBefore anchor is =>
    exact (Arena.Change.insertAllBefore_follows anchor is).bind fun _ ↦ .pure _
  | remove id => exact (Arena.Change.remove_follows id).bind fun _ ↦ .pure _
  | redirectTargets old new accept =>
    exact (Arena.Change.redirectTargets_follows old new accept).bind fun _ ↦ .pure _
  | change id f => exact (Arena.Change.change_follows id f).bind fun _ ↦ .pure _

/-! ### Histories -/

variable {σ τ : Type} {R : σ → τ → Prop}

/-- If every operation follows, every history does. -/
theorem history_follows {x : Operation → EStateM Fault σ Answer}
    {y : Operation → EStateM Fault τ Answer} (hxy : ∀ op, Follows R (x op) (y op))
    (ops : List Operation) {s : σ} {t : τ} (h : R s t) :
    (history x s ops).1 = (history y t ops).1 ∧ R (history x s ops).2 (history y t ops).2 := by
  induction ops generalizing s t with
  | nil => exact ⟨rfl, h⟩
  | cons op ops ih =>
    have hop := hxy op h
    rw [history, history]
    cases hx : (x op).run s <;> cases hy : (y op).run t <;> rw [hx, hy] at hop
    case ok.ok =>
      obtain ⟨rfl, h'⟩ := hop
      exact ⟨congrArg _ (ih h').1, (ih h').2⟩
    case error.error =>
      obtain ⟨rfl, h'⟩ := hop
      exact ⟨congrArg _ (ih h').1, (ih h').2⟩
    all_goals exact hop.elim

theorem history_append (x : Operation → EStateM Fault σ Answer) (s : σ)
    (ops later : List Operation) :
    (history x s (ops ++ later)).2 = (history x (history x s ops).2 later).2 := by
  induction ops generalizing s with
  | nil => rfl
  | cons op ops ih =>
    rw [List.cons_append, history, history]
    cases (x op).run s <;> exact ih _

/-- The ids that the operations of a history gave. -/
def newIds (outcomes : List (Except Fault Answer)) : List InstrId :=
  outcomes.flatMap fun
    | .ok answer => answer.newIds
    | .error _ => []

/-- The ids that a history gives are the next ones; of those before it, what was not listed is not
listed after it. -/
theorem newIds_history (l : Ledger) (ops : List Operation) :
    ∃ n, (history onLedger l ops).2.given = l.given + n ∧
      newIds (history onLedger l ops).1 = (List.range n).map (fun k ↦ ⟨l.given + k⟩) ∧
      ∀ id ∈ (history onLedger l ops).2.entries.ids, id.index < l.given → id ∈ l.entries.ids := by
  induction ops generalizing l with
  | nil => exact ⟨0, rfl, rfl, fun _ h _ ↦ h⟩
  | cons op ops ih =>
    rw [history]
    cases hrun : (op.onLedger).run l with
    | ok answer l' =>
      obtain ⟨n, hgiven, hnew, hids⟩ := newIds_onLedger hrun
      obtain ⟨m, hgiven', hnew', hids'⟩ := ih l'
      refine ⟨n + m, ?_, ?_, ?_⟩
      · rw [hgiven', hgiven, Nat.add_assoc]
      · show answer.newIds ++ newIds (history onLedger l' ops).1 = _
        rw [hnew, hnew', hgiven, List.range_add, List.map_append, List.map_map]
        simp [Function.comp_def, Nat.add_assoc]
      · intro id hid hlt
        rcases hids id (hids' id hid (by omega)) with hold | hold
        · exact hold
        · rw [hnew] at hold
          obtain ⟨k, -, rfl⟩ := List.mem_map.1 hold
          exact absurd hlt (by simp)
    | error fault l' =>
      rw [eq_of_onLedger_error hrun]
      exact ih l

open Arena.Change in
/-- An operation on an arena that fails changes nothing. -/
theorem eq_of_onArena_error {op : Operation} {a a' : Arena} {p : Program} {fault : Fault}
    (hlinks : a.Links p) (h : op.onArena.run a = .error fault a') : a' = a := by
  cases op with
  | push | redirectTargets => cases h
  | insertBefore anchor i =>
    rw [onArena, Arena.Change.insertBefore, bind_assoc] at h
    exact eq_of_guarded_error (requireLive_cases anchor a) (fun _ _ _ h ↦ by cases h) h
  | insertAfter anchor i =>
    rw [onArena, Arena.Change.insertAfter, bind_assoc] at h
    exact eq_of_guarded_error (requireLive_cases anchor a) (fun _ _ _ h ↦ by cases h) h
  | insertAllBefore anchor is =>
    rw [onArena, Arena.Change.insertAllBefore, bind_assoc] at h
    refine eq_of_guarded_error (requireLive_cases anchor a) (fun hlive _ _ hrun ↦ ?_) h
    -- The anchor stays live while the instructions are put before it.
    have hanchor : anchor ∈ p.order := by
      rw [Arena.Change.run_requireLive anchor a p hlinks] at hlive
      by_contra hne
      rw [if_neg hne] at hlive
      cases hlive
    have hsame := Follows.mapM (Arena.Change.insertBefore_follows anchor) is hlinks
    rw [Edit.run_mapM_insertBefore hanchor] at hsame
    rw [EStateM.run_bind] at hrun
    cases hall : (is.mapM (Arena.Change.insertBefore anchor)).run a with
    | ok => rw [hall] at hrun; cases hrun
    | error => rw [hall] at hsame; exact hsame
  | remove id =>
    rw [onArena, Arena.Change.remove, bind_assoc] at h
    exact eq_of_guarded_error (requireLive_cases id a) (fun _ _ _ h ↦ by cases h) h
  | change id f =>
    rw [onArena, Arena.Change.change, bind_assoc] at h
    exact eq_of_guarded_error (requireLive_cases id a) (fun _ _ _ h ↦ by cases h) h

/-! ### Histories of arenas -/

/-- A program and an arena to begin with: without instructions, or from one listing. -/
inductive Started : Program → Arena → Prop
  | empty : Started .empty .empty
  | listing {l : Listing} {p : Program} {a : Arena} (hp : l.toProgram = .ok p)
    (ha : l.toArena = .ok a) : Started p a

theorem Started.links {p : Program} {a : Arena} (h : Started p a) : a.Links p := by
  cases h with
  | empty => exact Arena.links_empty
  | listing hp ha => exact .of_toArena ha hp

/-- After some operations, an arena and a program are as good as a list. -/
structure RefinesList (p : Program) (a : Arena) (l : Ledger) (ops : List Operation) : Prop where
  /-- Every operation gave on the arena, and on the program, what it gives on the list. -/
  arena_outcomes : (history onArena a ops).1 = (history onLedger l ops).1
  program_outcomes : (history onProgram p ops).1 = (history onLedger l ops).1
  /-- Every question has the answer that the list gives. -/
  arena_view : (history onArena a ops).2.view = (history onLedger l ops).2.entries.view
  program_view : (history onProgram p ops).2.view = (history onLedger l ops).2.entries.view
  /-- No id is listed twice. -/
  nodup : (history onLedger l ops).2.entries.ids.Nodup
  /-- The way along the links from the first slot goes through the list, and every way ends. -/
  walks_first? : (history onArena a ops).2.Walks (history onArena a ops).2.first?
    (history onLedger l ops).2.entries.ids
  exists_walks : ∀ id, ∃ ids, (history onArena a ops).2.Walks (some id) ids
  /-- No id was given twice, nor one that was there from the beginning. -/
  given_nodup : (l.entries.ids ++ newIds (history onArena a ops).1).Nodup
  /-- An id that is dead stays dead. -/
  dead : ∀ id ∈ l.entries.ids ++ newIds (history onArena a ops).1,
    (history onArena a ops).2.contains id = false →
      ∀ later, (history onArena a (ops ++ later)).2.contains id = false
  /-- What fails leaves the arena exactly as it is. -/
  fault : ∀ (op : Operation) (fault : Fault) (a' : Arena),
    op.onArena.run (history onArena a ops).2 = .error fault a' → a' = (history onArena a ops).2

/-- From an empty program or an accepted listing, every sequence of operations acts on an arena, and
on a program, as it acts on a list of instructions with their ids. -/
theorem history_refines_list {p : Program} {a : Arena} (h : Started p a) :
    ∃ l : Ledger, ∀ ops : List Operation, RefinesList p a l ops := by
  have hlinks := h.links
  have hkeeps : Ledger.Keeps ⟨p.slots.size, p.entries⟩ p := ⟨rfl, rfl⟩
  refine ⟨⟨p.slots.size, p.entries⟩, fun ops ↦ ?_⟩
  have harena (ops : List Operation) := history_follows follows_onArena ops hlinks
  have hledger (ops : List Operation) := history_follows follows_onLedger ops hkeeps
  have houtcomes : (history onArena a ops).1 =
      (history onLedger ⟨p.slots.size, p.entries⟩ ops).1 :=
    (harena ops).1.trans (hledger ops).1.symm
  have hids (ops : List Operation) := (hledger ops).2.ids
  have hview : (history onProgram p ops).2.view =
      (history onLedger ⟨p.slots.size, p.entries⟩ ops).2.entries.view := by
    rw [Program.view_eq, (hledger ops).2.entries]
  obtain ⟨n, hgiven, hnew, -⟩ := newIds_history ⟨p.slots.size, p.entries⟩ ops
  constructor
  case arena_outcomes => exact houtcomes
  case program_outcomes => exact (hledger ops).1.symm
  case arena_view => rw [(harena ops).2.view, hview]
  case program_view => exact hview
  case nodup =>
    rw [hids]
    exact Program.order_nodup _
  case walks_first? =>
    rw [hids]
    exact (harena ops).2.walks_first?
  case exists_walks => exact (harena ops).2.exists_walks
  case given_nodup =>
    rw [houtcomes, hnew, List.nodup_append']
    refine ⟨Program.entries_nodup, List.nodup_range.map fun j k hjk ↦ ?_, fun id hid hnewId ↦ ?_⟩
    · simpa using hjk
    · rw [Listing.ids, Program.map_fst_entries] at hid
      obtain ⟨k, -, rfl⟩ := List.mem_map.1 hnewId
      exact absurd (Program.index_lt_of_mem hid) (by simp)
  case dead =>
    intro id hid hdead later
    have hcontains (ops : List Operation) : (history onArena a ops).2.contains id = true ↔
        id ∈ (history onLedger ⟨p.slots.size, p.entries⟩ ops).2.entries.ids := by
      rw [(harena ops).2.contains, Program.contains_iff, hids]
    have hlt : id.index < (history onLedger ⟨p.slots.size, p.entries⟩ ops).2.given := by
      rw [houtcomes, hnew, Listing.ids, Program.map_fst_entries, List.mem_append] at hid
      rw [hgiven]
      rcases hid with hid | hid
      · exact Nat.lt_add_right _ (Program.index_lt_of_mem hid)
      · obtain ⟨k, hk, rfl⟩ := List.mem_map.1 hid
        exact Nat.add_lt_add_left (List.mem_range.1 hk) _
    obtain ⟨-, -, -, hkept⟩ :=
      newIds_history (history onLedger ⟨p.slots.size, p.entries⟩ ops).2 later
    rw [← Bool.not_eq_true, hcontains] at hdead ⊢
    rw [history_append]
    exact fun hlater ↦ hdead (hkept id hlater hlt)
  case fault => exact fun op fault a' ↦ eq_of_onArena_error (harena ops).2

theorem history_refines_list_backJump : ∃ p a l,
    Listing.toProgram [(⟨7⟩, .skip), (⟨3⟩, .goto ⟨7⟩ (.bool true))] = .ok p ∧
    Listing.toArena [(⟨7⟩, .skip), (⟨3⟩, .goto ⟨7⟩ (.bool true))] = .ok a ∧
    (∀ ops, RefinesList p a l ops) ∧
    (history onArena a [.insertBefore ⟨1⟩ .skip, .remove ⟨0⟩, .insertAfter ⟨0⟩ .skip]).1 =
      [.ok (.ids [⟨2⟩]), .ok (.instruction .skip), .error (.notInProgram ⟨0⟩)] := by
  have hp : ∃ p, Listing.toProgram [(⟨7⟩, .skip), (⟨3⟩, .goto ⟨7⟩ (.bool true))] = .ok p := ⟨_, rfl⟩
  have ha : ∃ a, Listing.toArena [(⟨7⟩, .skip), (⟨3⟩, .goto ⟨7⟩ (.bool true))] = .ok a := ⟨_, rfl⟩
  obtain ⟨p, hp⟩ := hp
  obtain ⟨a, ha⟩ := ha
  obtain ⟨l, hl⟩ := history_refines_list (.listing hp ha)
  refine ⟨p, a, l, hp, ha, hl, ?_⟩
  cases ha
  decide

end Operation

end LoopInduction
