import LoopInduction.Proofs.Program.History

/-!
# Ranges

A range goes from an instruction up to, and without, another one. What the order of a program says
of it is in `LoopInduction.Proofs.Program.Position`. Here it is found along the links, from the
first id on until the other one is met (`Arena.range`). Ids say nothing about the order, so the other one
may stand in front, and the way then has to end without it. It does, whatever ids are asked for, and
it takes no more ids than there are slots (`Arena.Links.range`).

Ranges that meet are one (`Program.range_append`). Every operation that gives new ids puts the new
instructions in one place (`Operation.exists_splice`), so a range that they do not come to stand in
is the range from before (`Program.Splice.range_eq`).

## Main definitions

* `Program.RangesAreSegments` : the ranges of a program are the stretches of its order.

## Main results

* `Program.rangesAreSegments` : they are, for every program.
-/

namespace LoopInduction

namespace Program

variable {p q : Program} {first last a b c : InstrId}

/-! ### Ranges that cannot be taken -/

@[simp] theorem contains_eq_false_iff : p.contains a = false ↔ a ∉ p.order := by
  rw [← Bool.not_eq_true, contains_iff]

theorem range_of_notMem_first (h : first ∉ p.order) :
    p.range first last = .error (.notInProgram first) := by
  rw [range, if_pos (by simpa using h)]

theorem range_of_notMem_last (hfirst : first ∈ p.order) (h : last ∉ p.order) :
    p.range first last = .error (.notInProgram last) := by
  rw [range, if_neg (by simpa using hfirst), if_pos (by simpa using h)]

/-- Between two instructions, all depends on what comes from the first one on. -/
theorem range_of_mem (hfirst : first ∈ p.order) (hlast : last ∈ p.order) :
    p.range first last =
      if last ∈ p.order.drop (p.position first) then
        .ok ((p.order.drop (p.position first)).takeWhile (· ≠ last))
      else .error (.doesNotFollow last first) := by
  rw [range, if_neg (by simpa using hfirst), if_neg (by simpa using hlast), dropWhile_order]

theorem range_of_position_lt (hfirst : first ∈ p.order) (hlast : last ∈ p.order)
    (h : p.position last < p.position first) :
    p.range first last = .error (.doesNotFollow last first) := by
  have hbefore : last ∉ p.order.drop (p.position first) := by
    rw [mem_drop_position_iff hlast]
    exact Nat.not_le.2 h
  rw [range_of_mem hfirst hlast, if_neg hbefore]

/-! ### Ranges that meet -/

/-- Where three instructions are in order, the range up to the second and the range from there make
up the whole. -/
theorem range_append (ha : a ∈ p.order) (hb : b ∈ p.order) (hc : c ∈ p.order)
    (hab : p.position a ≤ p.position b) (hbc : p.position b ≤ p.position c) :
    ∃ ids₁ ids₂, p.range a b = .ok ids₁ ∧ p.range b c = .ok ids₂ ∧
      p.range a c = .ok (ids₁ ++ ids₂) := by
  have hlength : p.position c - p.position a =
      (p.position b - p.position a) + (p.position c - p.position b) := by omega
  refine ⟨_, _, range_eq ha hb hab, range_eq hb hc hbc, ?_⟩
  rw [range_eq ha hc (Nat.le_trans hab hbc), hlength, List.take_add, List.drop_drop,
    Nat.add_sub_cancel' hab]

/-! ### Ranges and new instructions -/

/-- A range stays as it is, or as impossible as it is, if the new instructions come to stand in
front of its first instruction or behind its end. -/
theorem Splice.range_eq {k : Nat} {new : List InstrId} (h : Splice p q k new)
    (hfirst : first ∉ new) (hlast : last ∉ new)
    (hout : ∀ x ∈ new, q.position x < q.position first ∨ q.position last < q.position x) :
    q.range first last = p.range first last := by
  have hold : ∀ x, x ∉ new → (x ∈ q.order ↔ x ∈ p.order) := fun x hx ↦ by
    rw [h.mem_iff, or_iff_left hx]
  by_cases hf : first ∈ p.order
  case neg => rw [range_of_notMem_first hf, range_of_notMem_first (mt (hold first hfirst).1 hf)]
  by_cases hl : last ∈ p.order
  case neg =>
    rw [range_of_notMem_last hf hl,
      range_of_notMem_last (h.mem_old hf) (mt (hold last hlast).1 hl)]
  rcases Nat.lt_or_ge (p.position last) (p.position first) with hlt | hle
  · have hlt' : q.position last < q.position first := by
      have := position_le_iff_of_sublist h.sublist hf hl
      omega
    rw [range_of_position_lt hf hl hlt, range_of_position_lt (h.mem_old hf) (h.mem_old hl) hlt']
  · obtain ⟨ids, hids⟩ := exists_range_iff.2 ⟨hf, hl, hle⟩
    rw [hids]
    cases new with
    | nil =>
      have horder : q.order = p.order := by rw [h.order, List.append_nil, List.take_append_drop]
      exact range_of_isInfix (horder ▸ isInfix_of_range hids) (head?_of_range_append hids)
    | cons x new =>
      -- Were the splice in front of some `y` inside, `x` would stand between the two ends.
      refine h.range hids fun y hy hpos ↦ ?_
      have hfy : p.position first < k := hpos ▸ position_lt_of_mem_tail hids hy
      have hyl : k ≤ p.position last :=
        hpos ▸ ((mem_range_append_iff hids).1 (List.mem_of_mem_tail hy)).2.2
      have hfx := (h.position_old_le_new_iff hf List.mem_cons_self).2 hfy
      have hxl := (h.position_new_le_old_iff hl List.mem_cons_self).2 hyl
      have := hout x List.mem_cons_self
      omega

/-- The same of the ranges that can be taken, where one of the two ids may be new itself. -/
theorem Splice.range_eq_ok_iff {k : Nat} {new ids : List InstrId} (h : Splice p q k new)
    (hout : ∀ x ∈ new, q.position x < q.position first ∨ q.position last < q.position x) :
    q.range first last = .ok ids ↔ p.range first last = .ok ids := by
  constructor
  · intro hq
    obtain ⟨-, -, hle⟩ := range_eq_ok hq
    have hfirst : first ∉ new := fun hnew ↦ by
      have := hout first hnew
      omega
    have hlast : last ∉ new := fun hnew ↦ by
      have := hout last hnew
      omega
    rw [← h.range_eq hfirst hlast hout, hq]
  · intro hp
    obtain ⟨hf, hl, -⟩ := range_eq_ok hp
    have hfirst : first ∉ new := fun hnew ↦ h.notMem_of_mem_new hnew hf
    have hlast : last ∉ new := fun hnew ↦ h.notMem_of_mem_new hnew hl
    rw [h.range_eq hfirst hlast hout, hp]

end Program

theorem Edit.mem_of_run_guarded {α : Type} {id : InstrId} {e : Edit α} {p q : Program} {x : α}
    (h : (discard (fetch id) >>= fun _ ↦ e).run p = .ok x q) : id ∈ p.order := by
  by_contra hid
  rw [EStateM.run_bind, run_discard_fetch, if_neg hid] at h
  cases h

/-- An operation that gives new ids puts the new instructions in one place. -/
theorem Operation.exists_splice {op : Operation} {p q : Program} {new : List InstrId}
    (h : op.onProgram.run p = .ok (.ids new) q) : ∃ k, p.Splice q k new := by
  have hlt {anchor : InstrId} (hanchor : anchor ∈ p.order) : p.position anchor < p.order.length :=
    Program.position_lt_iff.2 hanchor
  cases op with
  | push i =>
    cases h
    exact ⟨_, Program.splice_insertAt (Nat.le_refl _)⟩
  | insertBefore anchor i =>
    obtain ⟨_, _, hrun, hpure⟩ := EStateM.exists_of_run_bind h
    have hanchor : anchor ∈ p.order := Edit.mem_of_run_guarded hrun
    cases (Edit.run_insertBefore hanchor i).symm.trans hrun
    cases hpure
    exact ⟨_, Program.splice_insertAt (Nat.le_of_lt (hlt hanchor))⟩
  | insertAfter anchor i =>
    obtain ⟨_, _, hrun, hpure⟩ := EStateM.exists_of_run_bind h
    have hanchor : anchor ∈ p.order := Edit.mem_of_run_guarded hrun
    cases (Edit.run_insertAfter hanchor i).symm.trans hrun
    cases hpure
    exact ⟨_, Program.splice_insertAt (hlt hanchor)⟩
  | insertAllBefore anchor is =>
    obtain ⟨_, _, hrun, hpure⟩ := EStateM.exists_of_run_bind h
    have hanchor : anchor ∈ p.order := Edit.mem_of_run_guarded hrun
    cases (Edit.run_insertAllBefore hanchor is).symm.trans hrun
    cases hpure
    exact ⟨_, Program.splice_insertAllAt is (Nat.le_of_lt (hlt hanchor))⟩
  | remove | redirectTargets | change =>
    obtain ⟨_, _, -, hpure⟩ := EStateM.exists_of_run_bind h
    cases hpure

/-! ### Ranges along the links -/

namespace Arena

variable {a : Arena} {p : Program}

/-- On a way that ends, going on until an id is met ends too. -/
theorem Walks.upTo_eq {cursor : Option InstrId} {ids : List InstrId} (h : a.Walks cursor ids)
    (first last : InstrId) {limit : Nat} (hlimit : ids.length ≤ limit) (met : List InstrId) :
    a.upTo first last limit met cursor =
      some (if last ∈ ids then .ok (met ++ ids.takeWhile (· ≠ last))
        else .error (.doesNotFollow last first)) := by
  induction h generalizing limit met with
  | done => cases limit <;> rfl
  | @step x ids rest ih =>
    obtain ⟨n, rfl⟩ := Nat.exists_eq_add_of_lt hlimit
    rw [upTo]
    by_cases hx : x = last
    · rw [if_pos hx, if_pos (hx ▸ List.mem_cons_self),
        List.takeWhile_cons_of_neg (by simpa using hx), List.append_nil]
    · have hmem : last ∈ x :: ids ↔ last ∈ ids :=
        ⟨fun h ↦ (List.mem_cons.1 h).resolve_left (Ne.symm hx), List.mem_cons_of_mem x⟩
      rw [if_neg hx, ih (Nat.le_add_right _ n), List.takeWhile_cons_of_pos (by simpa using hx),
        List.append_assoc, List.singleton_append]
      simp only [hmem]

/-- Between any two ids, the way along the links comes to an end and finds the range. -/
theorem Links.range (h : a.Links p) {limit : Nat} (hlimit : a.slots.size ≤ limit)
    (first last : InstrId) : a.range limit first last = some (p.range first last) := by
  rw [Arena.range, h.contains, h.contains]
  by_cases hfirst : first ∈ p.order
  case neg => rw [if_pos (by simpa using hfirst), Program.range_of_notMem_first hfirst]
  rw [if_neg (by simpa using hfirst)]
  by_cases hlast : last ∈ p.order
  case neg => rw [if_pos (by simpa using hlast), Program.range_of_notMem_last hfirst hlast]
  have hwalks : a.Walks (some first) (p.order.drop (p.position first)) := by
    have hway := h.walks (List.take_append_drop (p.position first) p.order).symm
    rwa [Program.drop_position hfirst, List.head?_cons, ← Program.drop_position hfirst] at hway
  have hlength : (p.order.drop (p.position first)).length ≤ limit := by
    have hslots := p.length_order_le
    rw [← h.size_slots] at hslots
    rw [List.length_drop]
    omega
  rw [if_neg (by simpa using hlast), hwalks.upTo_eq _ _ hlength, List.nil_append,
    Program.range_of_mem hfirst hlast]

end Arena

namespace Program

/-- The ranges of a program, between whatever ids, are the stretches of its order. -/
structure RangesAreSegments (p : Program) : Prop where
  /-- Along the links the way from one id to another ends, with the same outcome, when as many ids
  have been met as there are slots or before that. -/
  linked : ∀ a : Arena, a.Links p → ∀ limit, a.slots.size ≤ limit →
    ∀ first last, a.range limit first last = some (p.range first last)
  exists_iff : ∀ first last, (∃ ids, p.range first last = .ok ids) ↔
    first ∈ p.order ∧ last ∈ p.order ∧ p.position first ≤ p.position last
  segment : ∀ first last ids, p.range first last = .ok ids →
    ids.Nodup ∧ (ids ++ [last]).head? = some first ∧
      ∃ before behind, p.order = before ++ ids ++ last :: behind
  append : ∀ a b c, a ∈ p.order → b ∈ p.order → c ∈ p.order →
    p.position a ≤ p.position b → p.position b ≤ p.position c →
      ∃ ids₁ ids₂, p.range a b = .ok ids₁ ∧ p.range b c = .ok ids₂ ∧
        p.range a c = .ok (ids₁ ++ ids₂)
  /-- What is put in and does not come to stand between two ids leaves the range as it was. Where it
  could not be taken it fails as before, unless one of the two is new. -/
  insertion : ∀ (op : Operation) (new : List InstrId) (q : Program),
    op.onProgram.run p = .ok (.ids new) q → ∀ first last,
      (∀ x ∈ new, q.position x < q.position first ∨ q.position last < q.position x) →
        (∀ ids, q.range first last = .ok ids ↔ p.range first last = .ok ids) ∧
          (first ∉ new → last ∉ new → q.range first last = p.range first last)
  linked_insertion : ∀ (op : Operation) (new : List InstrId) (q : Program),
    op.onProgram.run p = .ok (.ids new) q → ∀ a : Arena, a.Links p →
      ∃ a', op.onArena.run a = .ok (.ids new) a' ∧ ∀ limit, a'.slots.size ≤ limit →
        ∀ first last, a'.range limit first last = some (q.range first last)

theorem rangesAreSegments (p : Program) : p.RangesAreSegments where
  linked _ h _ := h.range
  exists_iff _ _ := exists_range_iff
  segment _ _ _ h := ⟨nodup_of_range h, head?_of_range_append h, _, _, order_of_range h⟩
  append _ _ _ := range_append
  insertion op new q hrun first last hout := by
    obtain ⟨k, hsplice⟩ := op.exists_splice hrun
    exact ⟨fun _ ↦ hsplice.range_eq_ok_iff hout, fun hfirst hlast ↦
      hsplice.range_eq hfirst hlast hout⟩
  linked_insertion op new q hrun a ha := by
    obtain ⟨a', hrun', hlinks⟩ := op.follows_onArena.exists_of_run_eq_ok ha hrun
    exact ⟨a', hrun', fun _ ↦ hlinks.range⟩

/-- An instruction with a high id stands where it was put. -/
example : ((ofList [.skip, .skip, .endFunction]).insertAt 1 (.assert (.bool true))).range ⟨0⟩ ⟨2⟩ =
    .ok [⟨0⟩, ⟨3⟩, ⟨1⟩] := rfl

end Program

end LoopInduction
