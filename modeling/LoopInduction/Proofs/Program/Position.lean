import LoopInduction.Program.Entries
import Mathlib.Data.List.Nodup
import Mathlib.Data.List.TakeDrop

/-!
# Positions in program order

The position of an instruction is its number in program order. Looking at a program becomes
arithmetic on positions: `next?_eq_some_iff`, `range_eq`, `mem_range_iff`. A *splice* puts new
instructions in between and keeps the others in order; `Splice.position_old` and
`Splice.position_new` say where everything stands afterwards, and `Splice.isInfix` that a stretch of
instructions stays in one piece unless the splice falls inside it.

## Main definitions

* `Program.position` : the number of an instruction in program order.
* `Program.Splice` : new instructions were put in at a position.
-/

namespace LoopInduction

namespace Program

variable {p q r : Program} {a b x : InstrId}

/-- The number of an instruction in program order. -/
def position (p : Program) (id : InstrId) : Nat :=
  p.order.idxOf id

theorem position_lt_iff : p.position a < p.order.length ↔ a ∈ p.order :=
  List.idxOf_lt_length_iff

theorem position_inj (ha : a ∈ p.order) : p.position a = p.position b ↔ a = b :=
  List.idxOf_inj ha

theorem getElem?_position (ha : a ∈ p.order) : p.order[p.position a]? = some a :=
  List.getElem?_idxOf ha

theorem position_eq_of_getElem? {k : Nat} (h : p.order[k]? = some a) : p.position a = k := by
  obtain ⟨hk, rfl⟩ := List.getElem?_eq_some_iff.1 h
  exact List.Nodup.idxOf_getElem p.order_nodup k hk

/-- The instruction between two stretches of the order stands at the length of the first. -/
theorem position_eq_length {pre post : List InstrId} (h : p.order = pre ++ a :: post) :
    p.position a = pre.length :=
  position_eq_of_getElem? (by rw [h]; simp)

theorem dropWhile_order (a : InstrId) :
    p.order.dropWhile (· ≠ a) = p.order.drop (p.position a) := by
  rw [List.dropWhile_eq_drop_findIdx_not, position, List.idxOf]
  congr 2
  funext x
  by_cases h : x = a <;> simp [h]

theorem dropWhile_order_of_notMem (ha : a ∉ p.order) : p.order.dropWhile (· ≠ a) = [] := by
  rw [dropWhile_order, position, List.idxOf_of_notMem ha, List.drop_length]

theorem length_take_position (ha : a ∈ p.order) :
    (p.order.take (p.position a)).length = p.position a :=
  List.length_take_of_le (Nat.le_of_lt (position_lt_iff.2 ha))

theorem drop_position (ha : a ∈ p.order) :
    p.order.drop (p.position a) = a :: p.order.drop (p.position a + 1) := by
  rw [← List.cons_getElem_drop_succ (h := position_lt_iff.2 ha)]
  congr 1
  exact List.getElem_idxOf (position_lt_iff.2 ha)

/-! ### The next instruction -/

theorem next?_eq (ha : a ∈ p.order) : p.next? a = p.order[p.position a + 1]? := by
  rw [next?, after, dropWhile_order, drop_position ha, List.tail_cons, List.head?_drop]

theorem next?_eq_none_of_notMem (ha : a ∉ p.order) : p.next? a = none := by
  rw [next?, after, dropWhile_order_of_notMem ha]
  rfl

theorem next?_eq_some_iff :
    p.next? a = some b ↔ a ∈ p.order ∧ b ∈ p.order ∧ p.position b = p.position a + 1 := by
  constructor
  · intro h
    have ha : a ∈ p.order := by
      by_contra ha
      rw [next?_eq_none_of_notMem ha] at h
      cases h
    rw [next?_eq ha] at h
    exact ⟨ha, List.mem_of_getElem? h, position_eq_of_getElem? h⟩
  · rintro ⟨ha, hb, hpos⟩
    rw [next?_eq ha, ← hpos, getElem?_position hb]

theorem next?_congr (h : q.order = p.order) : q.next? a = p.next? a := by
  rw [next?, next?, after, after, h]

theorem mem_of_next? (h : p.next? a = some b) : b ∈ p.order :=
  (next?_eq_some_iff.1 h).2.1

/-- Nothing comes after an instruction exactly if it is the last one. -/
theorem next?_eq_none_iff (ha : a ∈ p.order) :
    p.next? a = none ↔ p.position a + 1 = p.order.length := by
  have hlt := position_lt_iff.2 ha
  rw [next?_eq ha, List.getElem?_eq_none_iff]
  omega

theorem next?_eq_none_iff_last? (ha : a ∈ p.order) : p.next? a = none ↔ p.last? = some a := by
  rw [next?_eq_none_iff ha, last?, List.getLast?_eq_getElem?]
  constructor
  · intro h
    rw [← h, Nat.add_sub_cancel, getElem?_position ha]
  · intro h
    have hlt := position_lt_iff.2 ha
    have := position_eq_of_getElem? h
    omega

/-- What comes right before an instruction is what the instruction comes right after. -/
theorem prev?_eq_some_iff : p.prev? b = some a ↔ p.next? a = some b := by
  rw [prev?, next?_eq_some_iff]
  by_cases hb : b ∈ p.order
  · have htake : p.order.takeWhile (· ≠ b) = p.order.take (p.position b) := by
      rw [List.takeWhile_eq_take_findIdx_not, position, List.idxOf]
      congr 2
      funext x
      by_cases h : x = b <;> simp [h]
    have hlt := position_lt_iff.2 hb
    rw [if_pos (contains_iff.2 hb), htake, List.getLast?_eq_getElem?, List.length_take,
      Nat.min_eq_left (Nat.le_of_lt hlt)]
    constructor
    · intro h
      obtain ⟨hk, -⟩ := List.getElem?_eq_some_iff.1 h
      rw [List.length_take] at hk
      rw [List.getElem?_take_of_lt (by omega)] at h
      have := position_eq_of_getElem? h
      exact ⟨List.mem_of_getElem? h, hb, by omega⟩
    · rintro ⟨ha, -, hpos⟩
      rw [List.getElem?_take_of_lt (by omega), hpos, Nat.add_sub_cancel, getElem?_position ha]
  · rw [if_neg (by simpa using hb)]
    simp [hb]

theorem next?_of_order {pre post : List InstrId} (h : p.order = pre ++ a :: post) :
    p.next? a = post.head? := by
  have ha : a ∈ p.order := by simp [h]
  rw [next?_eq ha, position_eq_length h, h, List.getElem?_append_right (by omega)]
  simp [List.head?_eq_getElem?]

/-! ### Ranges -/

theorem mem_drop_position_iff (hb : b ∈ p.order) :
    b ∈ p.order.drop (p.position a) ↔ p.position a ≤ p.position b := by
  rw [List.mem_drop_iff_getElem]
  constructor
  · rintro ⟨k, hk, rfl⟩
    rw [position_eq_of_getElem? (List.getElem?_eq_getElem (by omega))]
    omega
  · intro h
    have hlt := position_lt_iff.2 hb
    refine ⟨p.position b - p.position a, by omega, ?_⟩
    have : p.position a + (p.position b - p.position a) = p.position b := by omega
    simp only [this]
    exact List.getElem_idxOf hlt

/-- A range is a stretch of the order. -/
theorem range_eq (ha : a ∈ p.order) (hb : b ∈ p.order) (h : p.position a ≤ p.position b) :
    p.range a b =
      .ok ((p.order.drop (p.position a)).take (p.position b - p.position a)) := by
  have hsplit : p.order.drop (p.position a) =
      (p.order.drop (p.position a)).take (p.position b - p.position a) ++
        p.order.drop (p.position b) := by
    conv_lhs => rw [← List.take_append_drop (p.position b - p.position a)
      (p.order.drop (p.position a))]
    rw [List.drop_drop, Nat.add_sub_cancel' h]
  have hbefore : ∀ x ∈ (p.order.drop (p.position a)).take (p.position b - p.position a),
      x ≠ b := by
    rintro x hx rfl
    obtain ⟨k, hk, hxk⟩ := List.getElem_of_mem hx
    rw [List.getElem_take, List.getElem_drop] at hxk
    have := position_eq_of_getElem? (List.getElem?_eq_some_iff.2 ⟨_, hxk⟩)
    simp only [List.length_take] at hk
    omega
  have htake : (p.order.drop (p.position a)).takeWhile (· ≠ b) =
      (p.order.drop (p.position a)).take (p.position b - p.position a) := by
    rw [hsplit, List.takeWhile_append_of_pos (by simpa using hbefore), drop_position hb,
      List.takeWhile_cons_of_neg (by simp), List.append_nil, ← drop_position hb, ← hsplit]
  rw [range, if_neg (by simpa using ha), if_neg (by simpa using hb), dropWhile_order,
    if_pos ((mem_drop_position_iff hb).2 h), htake]

theorem range_eq_ok {body : List InstrId} (h : p.range a b = .ok body) :
    a ∈ p.order ∧ b ∈ p.order ∧ p.position a ≤ p.position b := by
  unfold range at h
  split at h
  · cases h
  · next ha =>
    split at h
    · cases h
    · next hb =>
      split at h
      · next hmem =>
        rw [Bool.not_eq_true, Bool.not_eq_false', contains_iff] at ha hb
        rw [dropWhile_order, mem_drop_position_iff hb] at hmem
        exact ⟨ha, hb, hmem⟩
      · cases h

/-- A range can be taken exactly where both ends are there and in order. -/
theorem exists_range_iff : (∃ body, p.range a b = .ok body) ↔
    a ∈ p.order ∧ b ∈ p.order ∧ p.position a ≤ p.position b :=
  ⟨fun ⟨_, h⟩ ↦ range_eq_ok h, fun ⟨ha, hb, h⟩ ↦ ⟨_, range_eq ha hb h⟩⟩

/-- A range lies in the order between what comes before it and its end. -/
theorem order_of_range {body : List InstrId} (h : p.range a b = .ok body) :
    p.order = p.order.take (p.position a) ++ body ++ b :: p.order.drop (p.position b + 1) := by
  obtain ⟨ha, hb, hle⟩ := range_eq_ok h
  rw [range_eq ha hb hle] at h
  cases h
  rw [← drop_position hb, List.append_assoc]
  conv_lhs => rw [← List.take_append_drop (p.position a) p.order]
  congr 1
  conv_lhs => rw [← List.take_append_drop (p.position b - p.position a)
    (p.order.drop (p.position a))]
  rw [List.drop_drop, Nat.add_sub_cancel' hle]

theorem length_of_range {body : List InstrId} (h : p.range a b = .ok body) :
    p.position b = p.position a + body.length := by
  obtain ⟨ha, hb, hle⟩ := range_eq_ok h
  have hlt := position_lt_iff.2 hb
  rw [range_eq ha hb hle] at h
  cases h
  simp only [List.length_take, List.length_drop]
  omega

theorem mem_range_iff {body : List InstrId} (h : p.range a b = .ok body) :
    x ∈ body ↔ x ∈ p.order ∧ p.position a ≤ p.position x ∧ p.position x < p.position b := by
  obtain ⟨ha, hb, hle⟩ := range_eq_ok h
  have hlt := position_lt_iff.2 hb
  have hlen := length_of_range h
  rw [range_eq ha hb hle] at h
  cases h
  constructor
  · intro hx
    obtain ⟨k, hk, rfl⟩ := List.getElem_of_mem hx
    rw [List.getElem_take, List.getElem_drop]
    have := position_eq_of_getElem? (List.getElem?_eq_getElem
      (show p.position a + k < p.order.length by simp at hk; omega))
    simp only [List.length_take, List.length_drop] at hk
    exact ⟨List.getElem_mem _, by omega, by omega⟩
  · rintro ⟨hx, hax, hxb⟩
    have hxlt := position_lt_iff.2 hx
    refine List.mem_iff_getElem.2 ⟨p.position x - p.position a, ?_, ?_⟩
    · simp only [List.length_take, List.length_drop]
      omega
    · rw [List.getElem_take, List.getElem_drop]
      have : p.position a + (p.position x - p.position a) = p.position x := by omega
      simp only [this]
      exact List.getElem_idxOf hxlt

/-- A range that is not empty begins with its first end. -/
theorem head?_of_range {body : List InstrId} (h : p.range a b = .ok body) (hne : body ≠ []) :
    body.head? = some a := by
  obtain ⟨ha, hb, hle⟩ := range_eq_ok h
  have hlen := length_of_range h
  have hpos : 0 < body.length := List.length_pos_iff.2 hne
  rw [range_eq ha hb hle, drop_position ha] at h
  cases h
  obtain ⟨k, hk⟩ : ∃ k, p.position b - p.position a = k + 1 :=
    ⟨p.position b - p.position a - 1, by omega⟩
  rw [hk, List.take_succ_cons, List.head?_cons]

/-- A range and its end stand in one piece. -/
theorem isInfix_of_range {body : List InstrId} (h : p.range a b = .ok body) :
    body ++ [b] <:+: p.order := by
  refine ⟨p.order.take (p.position a), p.order.drop (p.position b + 1), ?_⟩
  conv_rhs => rw [order_of_range h]
  simp only [List.append_assoc, List.singleton_append]

theorem notMem_of_range {body : List InstrId} (h : p.range a b = .ok body) : b ∉ body := fun hmem ↦
  Nat.lt_irrefl _ ((mem_range_iff h).1 hmem).2.2

theorem nodup_of_range {body : List InstrId} (h : p.range a b = .ok body) : body.Nodup :=
  ((isInfix_of_range h).sublist.nodup p.order_nodup).of_append_left

theorem head?_of_range_append {body : List InstrId} (h : p.range a b = .ok body) :
    (body ++ [b]).head? = some a := by
  by_cases hne : body = []
  · have hlen := length_of_range h
    rw [hne, List.length_nil, Nat.add_zero] at hlen
    rw [hne, (position_inj (range_eq_ok h).2.1).1 hlen]
    rfl
  · rw [List.head?_append, head?_of_range h hne]
    rfl

/-- Behind an instruction of a range stands what comes next in it, or its end. -/
theorem next?_of_range {b₁ b₂ : List InstrId} (h : p.range a b = .ok (b₁ ++ x :: b₂)) :
    p.next? x = (b₂ ++ [b]).head? := by
  have horder : p.order = (p.order.take (p.position a) ++ b₁) ++
      x :: (b₂ ++ b :: p.order.drop (p.position b + 1)) := by
    simpa only [List.append_assoc, List.cons_append] using order_of_range h
  rw [next?_of_order horder]
  cases b₂ <;> rfl

theorem range_of_isInfix {body : List InstrId} (h : body ++ [b] <:+: p.order)
    (ha : (body ++ [b]).head? = some a) : p.range a b = .ok body := by
  obtain ⟨s, t, hst⟩ := h
  have hb : p.order = (s ++ body) ++ b :: t := by
    rw [← hst]
    simp only [List.append_assoc, List.singleton_append]
  obtain ⟨l, hl⟩ : ∃ l, body ++ [b] = a :: l := List.head?_eq_some_iff.1 ha
  have ha : p.order = s ++ a :: (l ++ t) := by
    rw [← hst, List.append_assoc, hl, List.cons_append]
  have hapos := position_eq_length ha
  have hbpos := position_eq_length hb
  rw [List.length_append] at hbpos
  rw [range_eq (by simp [ha]) (by simp [hb]) (by omega), hapos, hbpos, Nat.add_sub_cancel_left, hb,
    List.append_assoc, List.drop_left, List.take_left]

theorem mem_range_append_iff {body : List InstrId} (h : p.range a b = .ok body) :
    x ∈ body ++ [b] ↔ x ∈ p.order ∧ p.position a ≤ p.position x ∧ p.position x ≤ p.position b := by
  obtain ⟨-, hb, hle⟩ := range_eq_ok h
  rw [List.mem_append, mem_range_iff h, List.mem_singleton]
  constructor
  · rintro (⟨hx, hax, hxb⟩ | rfl)
    · exact ⟨hx, hax, Nat.le_of_lt hxb⟩
    · exact ⟨hb, hle, Nat.le_refl _⟩
  · rintro ⟨hx, hax, hxb⟩
    rcases Nat.lt_or_eq_of_le hxb with hlt | heq
    · exact .inl ⟨hx, hax, hlt⟩
    · exact .inr ((position_inj hx).1 heq)

/-- All of a range and its end but the first comes after the first. -/
theorem position_lt_of_mem_tail {body : List InstrId} (h : p.range a b = .ok body)
    (hx : x ∈ (body ++ [b]).tail) : p.position a < p.position x := by
  obtain ⟨l, hl⟩ : ∃ l, body ++ [b] = a :: l :=
    List.head?_eq_some_iff.1 (head?_of_range_append h)
  have hnodup : (a :: l).Nodup := hl ▸ (isInfix_of_range h).sublist.nodup p.order_nodup
  rw [hl, List.tail_cons] at hx
  have hmem := (mem_range_append_iff h).1 (hl ▸ List.mem_cons_of_mem a hx)
  have hne : a ≠ x := fun e ↦ (List.nodup_cons.1 hnodup).1 (e ▸ hx)
  have := (position_inj (p := p) (b := x) (range_eq_ok h).1).not.2 hne
  omega

/-! ### Stretches of the order -/

/-- The instructions of a stretch stand in the order as they stand in the stretch. -/
theorem exists_position_eq {ys : List InstrId} (h : ys <:+: p.order) :
    ∃ k, ∀ x ∈ ys, p.position x = k + ys.idxOf x := by
  obtain ⟨s, t, hst⟩ := h
  refine ⟨s.length, fun x hx ↦ ?_⟩
  have hlt := List.idxOf_lt_length_of_mem hx
  apply position_eq_of_getElem?
  rw [← hst, List.append_assoc, List.getElem?_append_right (by omega), Nat.add_sub_cancel_left,
    List.getElem?_append_left hlt, List.getElem?_idxOf hx]

theorem next?_of_isInfix (h : [a, b] <:+: p.order) : p.next? a = some b := by
  obtain ⟨s, t, hst⟩ := h
  have horder : p.order = s ++ a :: (b :: t) := by
    rw [← hst, List.append_assoc]
    rfl
  rw [next?_of_order horder]
  rfl

theorem isInfix_of_next? (h : p.next? a = some b) : [a, b] <:+: p.order := by
  obtain ⟨pre, post, horder⟩ := List.append_of_mem (next?_eq_some_iff.1 h).1
  rw [next?_of_order horder] at h
  obtain ⟨post, rfl⟩ := List.head?_eq_some_iff.1 h
  exact ⟨pre, post, by simp [horder]⟩

/-- What is not in a stretch stands in front of all of it or behind all of it. -/
theorem position_lt_of_isInfix {ys : List InstrId} (h : ys <:+: p.order) (hx : x ∈ p.order)
    (hnot : x ∉ ys) (ha : a ∈ ys) (hb : b ∈ ys) (hlt : p.position x < p.position b) :
    p.position x < p.position a := by
  obtain ⟨k, hk⟩ := exists_position_eq h
  by_contra hle
  have hlen := List.idxOf_lt_length_of_mem hb
  rw [hk b hb] at hlt
  rw [hk a ha] at hle
  -- the stretch would have an instruction at the position of `x`
  have hj : p.position x - k < ys.length := by omega
  have hpos := hk _ (List.getElem_mem hj)
  rw [(h.sublist.nodup p.order_nodup).idxOf_getElem _ hj] at hpos
  have heq : x = ys[p.position x - k] := (position_inj hx).1 (by omega)
  exact hnot (heq ▸ List.getElem_mem hj)

/-- Only one instruction comes right before another. -/
theorem eq_of_next? (ha : p.next? a = some x) (hb : p.next? b = some x) : a = b := by
  obtain ⟨hmem, -, hpos⟩ := next?_eq_some_iff.1 ha
  obtain ⟨-, -, hpos'⟩ := next?_eq_some_iff.1 hb
  exact (position_inj hmem).1 (by omega)

/-- What is not first in a list follows another one there. -/
theorem exists_isInfix_of_mem_tail {ys : List InstrId} (h : b ∈ ys.tail) :
    ∃ a ∈ ys.dropLast, [a, b] <:+: ys := by
  induction ys with
  | nil => cases h
  | cons a ys ih =>
    cases ys with
    | nil => cases h
    | cons c ys =>
      rcases List.mem_cons.1 h with rfl | h
      · exact ⟨a, List.mem_cons_self, [], ys, rfl⟩
      · obtain ⟨x, hx, hxb⟩ := ih h
        exact ⟨x, List.mem_cons_of_mem a hx, hxb.trans (List.suffix_cons a _).isInfix⟩

/-- What comes right before an instruction of a stretch is in the stretch, unless that is its
first. -/
theorem mem_dropLast_of_next? {ys : List InstrId} (hys : ys <:+: p.order) (hb : b ∈ ys.tail)
    (h : p.next? a = some b) : a ∈ ys.dropLast := by
  obtain ⟨x, hx, hxb⟩ := exists_isInfix_of_mem_tail hb
  rwa [eq_of_next? h (next?_of_isInfix (hxb.trans hys))]

/-! ### Splices -/

/-- New instructions were put in at a position, all others stay in their order. -/
structure Splice (p q : Program) (k : Nat) (new : List InstrId) : Prop where
  le : k ≤ p.order.length
  order : q.order = p.order.take k ++ new ++ p.order.drop k

namespace Splice

variable {k : Nat} {new : List InstrId}

theorem mem_iff (h : Splice p q k new) : x ∈ q.order ↔ x ∈ p.order ∨ x ∈ new := by
  have hp : x ∈ p.order ↔ x ∈ p.order.take k ∨ x ∈ p.order.drop k := by
    rw [← List.mem_append, List.take_append_drop]
  rw [h.order, List.append_assoc, List.mem_append, List.mem_append, hp]
  tauto

theorem mem_old (h : Splice p q k new) (hx : x ∈ p.order) : x ∈ q.order :=
  h.mem_iff.2 (.inl hx)

theorem mem_new (h : Splice p q k new) (hx : x ∈ new) : x ∈ q.order :=
  h.mem_iff.2 (.inr hx)

theorem notMem_of_mem_new (h : Splice p q k new) (hx : x ∈ new) : x ∉ p.order := by
  have hnodup := q.order_nodup
  rw [h.order, List.append_assoc, (List.perm_append_comm_assoc _ _ _).nodup_iff,
    List.take_append_drop] at hnodup
  exact fun hp ↦ (List.nodup_append.1 hnodup).2.2 x hx x hp rfl

theorem length (h : Splice p q k new) : q.order.length = p.order.length + new.length := by
  have := h.le
  rw [h.order]
  simp only [List.length_append, List.length_take, List.length_drop]
  omega

theorem sublist (h : Splice p q k new) : p.order.Sublist q.order := by
  rw [h.order]
  conv_lhs => rw [← List.take_append_drop k p.order]
  exact (List.sublist_append_left _ _).append (List.Sublist.refl _)

/-- What stood behind the splice moves on by the number of new instructions. -/
theorem position_old (h : Splice p q k new) (hx : x ∈ p.order) :
    q.position x = if p.position x < k then p.position x else p.position x + new.length := by
  have hlt := position_lt_iff.2 hx
  have hle := h.le
  have hget := getElem?_position hx
  apply position_eq_of_getElem?
  rw [h.order]
  split
  · next hk =>
    rw [List.append_assoc, List.getElem?_append_left (by rw [List.length_take]; omega),
      List.getElem?_take_of_lt hk, hget]
  · next hk =>
    rw [List.getElem?_append_right (by rw [List.length_append, List.length_take]; omega),
      List.getElem?_drop]
    convert hget using 2
    simp only [List.length_append, List.length_take]
    omega

/-- The new instructions stand in their order from the splice on. -/
theorem position_new (h : Splice p q k new) (hx : x ∈ new) :
    q.position x = k + new.idxOf x := by
  have hle := h.le
  have hlt := List.idxOf_lt_length_of_mem hx
  apply position_eq_of_getElem?
  rw [h.order, List.append_assoc, List.getElem?_append_right (by rw [List.length_take]; omega),
    List.getElem?_append_left (by rw [List.length_take]; omega)]
  convert List.getElem?_idxOf hx using 2
  simp only [List.length_take]
  omega

theorem position_new_bounds (h : Splice p q k new) (hx : x ∈ new) :
    k ≤ q.position x ∧ q.position x < k + new.length := by
  have := List.idxOf_lt_length_of_mem hx
  rw [h.position_new hx]
  omega

/-- What stood in front of the splice is what stands in front of the new instructions. -/
theorem position_old_le_new_iff (h : Splice p q k new) (hx : x ∈ p.order) (ha : a ∈ new) :
    q.position x ≤ q.position a ↔ p.position x < k := by
  have := h.position_new_bounds ha
  rw [h.position_old hx]
  split <;> omega

/-- What stood behind the splice is what stands behind the new instructions. -/
theorem position_new_le_old_iff (h : Splice p q k new) (hx : x ∈ p.order) (ha : a ∈ new) :
    q.position a ≤ q.position x ↔ k ≤ p.position x := by
  have := h.position_new_bounds ha
  rw [h.position_old hx]
  split <;> omega

/-- What comes next stays next, except where the splice begins. -/
theorem next?_old (h : Splice p q k new) (hx : x ∈ p.order) :
    q.next? x = if p.position x + 1 = k then new.head?.or (p.next? x) else p.next? x := by
  have hle := h.le
  have hlt := position_lt_iff.2 hx
  rw [next?_eq (h.mem_old hx), next?_eq hx, h.position_old hx, h.order, List.append_assoc]
  split
  · next hk =>
    split
    · next hk' =>
      rw [List.getElem?_append_right (by rw [List.length_take]; omega), hk', List.length_take,
        Nat.min_eq_left hle, Nat.sub_self, ← List.head?_eq_getElem?, List.head?_append,
        List.head?_drop]
    · rw [List.getElem?_append_left (by rw [List.length_take]; omega),
        List.getElem?_take_of_lt (by omega)]
  · rw [if_neg (by omega), ← List.append_assoc,
      List.getElem?_append_right (by rw [List.length_append, List.length_take]; omega),
      List.getElem?_drop]
    congr 1
    simp only [List.length_append, List.length_take]
    omega

/-- What comes next stays next, unless the splice is right in front of it. -/
theorem next?_eq_some (h : Splice p q k new) (hx : p.next? x = some a) (hk : p.position a ≠ k) :
    q.next? x = some a := by
  obtain ⟨hmem, -, hpos⟩ := next?_eq_some_iff.1 hx
  rw [h.next?_old hmem, if_neg (by omega), hx]

/-- The new instructions follow each other, the last one what stood at the splice. -/
theorem next?_new {n₁ n₂ : List InstrId} (h : Splice p q k (n₁ ++ x :: n₂)) :
    q.next? x = n₂.head?.or p.order[k]? := by
  have horder : q.order = (p.order.take k ++ n₁) ++ x :: (n₂ ++ p.order.drop k) := by
    rw [h.order]
    simp only [List.append_assoc, List.cons_append]
  rw [next?_of_order horder, List.head?_append, List.head?_drop]

/-- A stretch of instructions stays in one piece unless the splice falls inside it. -/
theorem isInfix (h : Splice p q k new) {ys : List InstrId} (hys : ys <:+: p.order)
    (hcut : ∀ y ∈ ys.tail, p.position y ≠ k) : ys <:+: q.order := by
  obtain ⟨s, t, hst⟩ := hys
  have hle := h.le
  rw [h.order]
  rcases Nat.lt_or_ge s.length k with hs | hs
  · rcases Nat.lt_or_ge k (s.length + ys.length) with hk | hk
    · -- the instruction at the splice would be one of the stretch, and not its first
      have hlt : k < p.order.length := by
        rw [← hst]
        simp only [List.length_append]
        omega
      have hget : p.order[k] ∈ ys.tail := by
        have htail : k - s.length - 1 < ys.tail.length := by
          rw [List.length_tail]
          omega
        have : p.order[k] = ys.tail[k - s.length - 1] := by
          simp only [← hst, List.getElem_tail]
          rw [List.getElem_append_left (by simpa using hk), List.getElem_append_right (by omega)]
          congr 1
          omega
        rw [this]
        exact List.getElem_mem _
      exact absurd (position_eq_of_getElem? (List.getElem?_eq_getElem hlt)) (hcut _ hget)
    · refine ⟨s, t.take (k - (s ++ ys).length) ++ new ++ p.order.drop k, ?_⟩
      rw [← hst, List.take_append, List.take_of_length_le (l := s ++ ys) (by simpa using hk)]
      simp only [List.append_assoc]
  · refine ⟨s.take k ++ new ++ s.drop k, t, ?_⟩
    rw [← hst, List.append_assoc s, List.take_append_of_le_length hs,
      List.drop_append_of_le_length hs]
    simp only [List.append_assoc]

/-- A splice in front of an instruction that is not in the stretch, or comes first in it, does not
fall inside the stretch. -/
theorem isInfix_of_notMem_tail (h : Splice p q (p.position x) new) {ys : List InstrId}
    (hys : ys <:+: p.order) (hx : x ∉ ys.tail) : ys <:+: q.order := by
  refine h.isInfix hys fun y hy hpos ↦ hx ?_
  rwa [← (position_inj (hys.subset (List.mem_of_mem_tail hy))).1 hpos]

/-- A splice behind an instruction that is not in the stretch, or comes last in it, does not fall
inside the stretch. -/
theorem isInfix_of_notMem_dropLast (h : Splice p q (p.position x + 1) new) {ys : List InstrId}
    (hys : ys <:+: p.order) (hx : x ∈ p.order) (hlast : x ∉ ys.dropLast) : ys <:+: q.order := by
  refine h.isInfix hys fun y hy hpos ↦ hlast (mem_dropLast_of_next? hys hy ?_)
  exact next?_eq_some_iff.2 ⟨hx, hys.subset (List.mem_of_mem_tail hy), hpos⟩

/-- New instructions stand in one piece in front of the one that they were put in front of. -/
theorem isInfix_before (h : Splice p q (p.position x) new) (hx : x ∈ p.order) :
    new ++ [x] <:+: q.order := by
  refine ⟨p.order.take (p.position x), p.order.drop (p.position x + 1), ?_⟩
  rw [h.order, drop_position hx]
  simp only [List.append_assoc, List.singleton_append]

/-- A stretch that begins right in front of the splice has the new instructions put in. -/
theorem isInfix_insert {ys : List InstrId} (h : Splice p q (p.position x + 1) new)
    (hys : x :: ys <:+: p.order) : x :: (new ++ ys) <:+: q.order := by
  obtain ⟨s, t, hst⟩ := hys
  have horder : p.order = (s ++ [x]) ++ (ys ++ t) := by
    rw [← hst]
    simp only [List.append_assoc, List.cons_append, List.nil_append]
  have hlen : p.position x + 1 = (s ++ [x]).length := by
    rw [position_eq_length (show p.order = s ++ x :: (ys ++ t) by simp [horder]),
      List.length_append, List.length_singleton]
  refine ⟨s, t, ?_⟩
  rw [h.order, hlen, horder, List.take_left, List.drop_left]
  simp only [List.append_assoc, List.cons_append, List.nil_append]

/-- A stretch that begins right behind the splice stays in one piece. -/
theorem isInfix_behind {ys : List InstrId} (h : Splice p q (p.position x) new)
    (hys : x :: ys <:+: p.order) : x :: ys <:+: q.order :=
  h.isInfix_of_notMem_tail hys (List.nodup_cons.1 (hys.sublist.nodup p.order_nodup)).1

/-- A range stays unless the splice falls inside it. -/
theorem range {body : List InstrId} (h : Splice p q k new) (hrange : p.range a b = .ok body)
    (hcut : ∀ y ∈ (body ++ [b]).tail, p.position y ≠ k) : q.range a b = .ok body :=
  range_of_isInfix (h.isInfix (isInfix_of_range hrange) hcut) (head?_of_range_append hrange)

/-- A splice in front of some instruction leaves the last one last. -/
theorem last?_eq (h : Splice p q k new) (hk : k < p.order.length) : q.last? = p.last? := by
  have hdrop : p.order.drop k ≠ [] := by simpa using hk
  rw [last?, last?, h.order, List.getLast?_append_of_ne_nil _ hdrop]
  conv_rhs => rw [← List.take_append_drop k p.order, List.getLast?_append_of_ne_nil _ hdrop]

/-- Two splices, the second right behind what the first put in, are one. -/
theorem trans {new' : List InstrId} (h : Splice p q k new)
    (h' : Splice q r (k + new.length) new') : Splice p r k (new ++ new') where
  le := h.le
  order := by
    have hlen : (p.order.take k ++ new).length = k + new.length := by
      simp [Nat.min_eq_left h.le]
    rw [h'.order, h.order, ← hlen, List.take_left, List.drop_left]
    simp only [List.append_assoc]

end Splice

/-! ### Orders that contain another -/

private theorem idxOf_le_iff_of_sublist {l m : List InstrId} (h : l.Sublist m) (hm : m.Nodup)
    (ha : a ∈ l) (hb : b ∈ l) : m.idxOf a ≤ m.idxOf b ↔ l.idxOf a ≤ l.idxOf b := by
  induction h with
  | slnil => cases ha
  | cons y h ih =>
    obtain ⟨hy, hm⟩ := List.nodup_cons.1 hm
    have hay : y ≠ a := fun e ↦ hy (e ▸ h.subset ha)
    have hby : y ≠ b := fun e ↦ hy (e ▸ h.subset hb)
    rw [List.idxOf_cons_ne _ hay, List.idxOf_cons_ne _ hby, Nat.succ_le_succ_iff, ih hm ha hb]
  | cons_cons y h ih =>
    obtain ⟨-, hm⟩ := List.nodup_cons.1 hm
    by_cases hay : y = a
    · simp [hay]
    · by_cases hby : y = b
      · simp [hby, List.idxOf_cons_ne _ (hby ▸ hay)]
      · rw [List.idxOf_cons_ne _ hay, List.idxOf_cons_ne _ hby, List.idxOf_cons_ne _ hay,
          List.idxOf_cons_ne _ hby, Nat.succ_le_succ_iff, Nat.succ_le_succ_iff,
          ih hm (List.mem_of_ne_of_mem (Ne.symm hay) ha) (List.mem_of_ne_of_mem (Ne.symm hby) hb)]

/-- Two instructions of the smaller order stand in it as they stand in the larger one. -/
theorem position_le_iff_of_sublist (h : p.order.Sublist q.order) (ha : a ∈ p.order)
    (hb : b ∈ p.order) : q.position a ≤ q.position b ↔ p.position a ≤ p.position b :=
  idxOf_le_iff_of_sublist h q.order_nodup ha hb

/-- Of the smaller order the same instructions lie in a range. -/
theorem mem_range_iff_of_sublist {body ids : List InstrId} (h : p.order.Sublist q.order)
    (hp : p.range a b = .ok body) (hq : q.range a b = .ok ids) (hx : x ∈ p.order) :
    x ∈ ids ↔ x ∈ body := by
  obtain ⟨ha, hb, -⟩ := range_eq_ok hp
  have hax := position_le_iff_of_sublist h ha hx
  have hxb := position_le_iff_of_sublist h hb hx
  rw [mem_range_iff hq, mem_range_iff hp, and_iff_right hx, and_iff_right (h.subset hx)]
  omega

end Program

end LoopInduction
