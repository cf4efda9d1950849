import LoopInduction.Loop.Basic
import LoopInduction.Proofs.Program.Arena

/-!
# Listings of parts of a program

The listing of a program goes from one instruction to the next and puts their lines behind each
other, and so does the listing of a part. Both take the labels from the whole program, so the lines
of an instruction are the same in every listing that it is in. The listing from one instruction up
to another is then cut out of the listing of the program, and listings that join each other in
program order give it back.

A listing that goes along the links of slots (`Arena.textBetween`) meets the instructions that stand
in the order from its first one on, so it is the same listing. From a dead slot it comes nowhere.

## Main definitions

* `Program.line` : the lines of an instruction in the listing of its program.
* `Program.Lists` : a text lists a stretch of the program, as it stands in the listing of it.
* `Program.ListedInPieces` : the listings of parts of a program are pieces of its listing.

## Main results

* `Program.textBetween_of_order` : the listing of a stretch of the order.
* `Arena.Links.textBetween` : the listing along the links.
* `Program.listedInPieces` : every program is listed in pieces.
-/

namespace LoopInduction

namespace Program

variable {p : Program} {a b : InstrId} {body ids : List InstrId}

/-- The lines of an instruction in the listing of the program. -/
def line (p : Program) (id : InstrId) : String :=
  (p.fetch id).text p.label? id

/-- The text lists some instructions that stand behind each other, and the listing of the program
has it between the lines before and behind them. -/
def Lists (p : Program) (ids : List InstrId) (s : String) : Prop :=
  ∃ before after, p.order = before ++ ids ++ after ∧ s = String.join (ids.map p.line) ∧
    p.text = String.join (before.map p.line) ++ s ++ String.join (after.map p.line)

theorem textOf_append (xs ys : List InstrId) :
    p.textOf (xs ++ ys) = p.textOf xs ++ p.textOf ys := by
  rw [textOf, List.map_append, String.join_append]
  rfl

theorem lists_textOf (h : ids <:+: p.order) : p.Lists ids (p.textOf ids) := by
  obtain ⟨before, after, horder⟩ := h
  refine ⟨before, after, horder.symm, rfl, ?_⟩
  rw [text, ← horder, textOf_append, textOf_append]
  rfl

/-! ### Stretches of the order -/

/-- Looking for what comes first behind some elements stops right behind them. -/
theorem takeWhile_ne_head? {xs ys : List InstrId} (h : (xs ++ ys).Nodup) :
    (xs ++ ys).takeWhile (some · ≠ ys.head?) = xs := by
  have hbefore : ∀ x ∈ xs, some x ≠ ys.head? := fun x hx he ↦
    (List.nodup_append.1 h).2.2 x hx x (List.mem_of_head? he.symm) rfl
  rw [List.takeWhile_append_of_pos (by simpa using hbefore)]
  cases ys <;> simp

/-- The listing from one instruction up to another has the lines of those in between. -/
theorem textBetween_of_order {before after : List InstrId} (h : p.order = before ++ ids ++ after)
    (ha : p.position a = before.length) : p.textBetween a after.head? = p.textOf ids := by
  have hnodup : (ids ++ after).Nodup := by
    have hall := p.order_nodup
    rw [h, List.append_assoc] at hall
    exact (List.nodup_append.1 hall).2.1
  have hdrop : p.order.dropWhile (· ≠ a) = ids ++ after := by
    rw [dropWhile_order, ha, h, List.append_assoc, List.drop_left]
  rw [textBetween, hdrop, takeWhile_ne_head? hnodup]

theorem textBetween_of_range (h : p.range a b = .ok body) :
    p.textBetween a (some b) = p.textOf body :=
  textBetween_of_order (order_of_range h) (length_take_position (range_eq_ok h).1).symm

/-- The listing of a range with its end goes up to what comes next. -/
theorem textBetween_next? (h : p.range a b = .ok body) :
    p.textBetween a (p.next? b) = p.textOf (body ++ [b]) := by
  have horder := order_of_range h
  rw [next?_of_order horder]
  exact textBetween_of_order (horder.trans (by simp)) (length_take_position (range_eq_ok h).1).symm

theorem textBetween_none (ha : a ∈ p.order) :
    p.textBetween a none = p.textOf (p.order.drop (p.position a)) := by
  have horder : p.order = p.order.take (p.position a) ++ p.order.drop (p.position a) ++ [] := by
    rw [List.append_nil, List.take_append_drop]
  exact textBetween_of_order horder (length_take_position ha).symm

theorem exists_textBetween_first? (ha : a ∈ p.order) : ∃ first, p.first? = some first ∧
    p.textBetween first (some a) = p.textOf (p.order.take (p.position a)) := by
  have hhead : (p.order.drop (p.position a)).head? = some a := by
    rw [drop_position ha, List.head?_cons]
  cases horder : p.order with
  | nil =>
    rw [horder] at ha
    cases ha
  | cons first rest =>
    have hfirst : p.position first = 0 := position_eq_length (horder.trans (List.nil_append _).symm)
    refine ⟨first, by rw [first?, horder, List.head?_cons], ?_⟩
    have hsplit : p.order = [] ++ p.order.take (p.position a) ++ p.order.drop (p.position a) := by
      rw [List.nil_append, List.take_append_drop]
    rw [← horder, ← hhead]
    exact textBetween_of_order hsplit hfirst

/-- The listing up to one instruction, on to a later one and on to the end is the whole listing. -/
theorem exists_text_eq_append (ha : a ∈ p.order) (hb : b ∈ p.order)
    (h : p.position a ≤ p.position b) : ∃ first, p.first? = some first ∧ p.text =
      p.textBetween first (some a) ++ p.textBetween a (some b) ++ p.textBetween b none := by
  obtain ⟨body, hbody⟩ := exists_range_iff.2 ⟨ha, hb, h⟩
  obtain ⟨first, hfirst, hupto⟩ := exists_textBetween_first? ha
  refine ⟨first, hfirst, ?_⟩
  calc p.text = p.textOf (p.order.take (p.position a) ++ body ++ p.order.drop (p.position b)) := by
        rw [drop_position hb, ← order_of_range hbody, text]
    _ = p.textBetween first (some a) ++ p.textBetween a (some b) ++ p.textBetween b none := by
        rw [textOf_append, textOf_append, hupto, textBetween_of_range hbody, textBetween_none hb]

/-- The listing of any part, even between instructions that are not there, is a piece. -/
theorem exists_lists_textBetween (first : InstrId) (last : Option InstrId) :
    ∃ ids, p.Lists ids (p.textBetween first last) :=
  ⟨_, lists_textOf ((List.takeWhile_prefix _).isInfix.trans (List.dropWhile_suffix _).isInfix)⟩

end Program

/-! ### Along the links -/

namespace Arena.Links

variable {a : Arena} {p : Program}

theorem labelled (h : a.Links p) : a.labelled = p.labelled := by
  rw [Arena.labelled, h.ids, h.entries, Program.labelled]

theorem textOf {ids : List InstrId} (h : a.Links p) (hids : ids ⊆ p.order) :
    a.textOf ids = p.textOf ids := by
  rw [Arena.textOf, h.labelled, Program.textOf]
  congr 1
  refine List.map_congr_left fun id hid ↦ ?_
  rw [h.get?, Program.get?_eq_some_fetch (hids hid)]
  rfl

theorem text (h : a.Links p) : a.text = p.text := by
  rw [Arena.text, h.ids, h.textOf (List.Subset.refl _), Program.text]

/-- Of dead slots there is nothing to list. -/
theorem textOf_of_forall_notMem {ids : List InstrId} (h : a.Links p)
    (hids : ∀ x ∈ ids, x ∉ p.order) : a.textOf ids = "" := by
  have hnone : ∀ x ∈ ids, a.get? x = none := fun x hx ↦
    (h.get? x).trans (Program.get?_eq_none_of_notMem (hids x hx))
  induction ids with
  | nil => rfl
  | cons x ids ih =>
    rw [Arena.textOf, List.map_cons, String.join_cons, hnone x List.mem_cons_self]
    exact ih (fun y hy ↦ hids y (List.mem_cons_of_mem _ hy))
      fun y hy ↦ hnone y (List.mem_cons_of_mem _ hy)

/-- From a dead slot the links lead nowhere. -/
theorem walk_of_notMem {x : InstrId} (h : a.Links p) (hx : x ∉ p.order) (limit : Nat) :
    a.walk limit (some x) ⊆ [x] := by
  cases limit with
  | zero => exact List.nil_subset _
  | succ n =>
    rw [walk, h.next?, Program.next?_eq_none_of_notMem hx]
    cases n <;> exact List.Subset.refl _

/-- The listing along the links is the one along the order. -/
theorem textBetween (h : a.Links p) (first : InstrId) (last : Option InstrId) :
    a.textBetween first last = p.textBetween first last := by
  by_cases hfirst : first ∈ p.order
  · obtain ⟨before, after, horder⟩ := List.append_of_mem hfirst
    have hwalk : a.walk a.slots.size (some first) = first :: after := by
      refine (h.walks horder).walk_eq ?_
      rw [h.size_slots]
      refine Nat.le_trans ?_ p.length_order_le
      rw [horder, List.length_append]
      exact Nat.le_add_left _ _
    have hdrop : p.order.dropWhile (· ≠ first) = first :: after := by
      rw [Program.dropWhile_order, Program.position_eq_length horder, horder, List.drop_left]
    rw [Arena.textBetween, hwalk, Program.textBetween, hdrop]
    refine h.textOf (List.Subset.trans (List.takeWhile_subset _) ?_)
    rw [horder]
    exact List.subset_append_right _ _
  · rw [Program.textBetween, Program.dropWhile_order_of_notMem hfirst, Arena.textBetween]
    refine h.textOf_of_forall_notMem fun x hx ↦ ?_
    rw [List.mem_singleton.1 (h.walk_of_notMem hfirst _ (List.takeWhile_subset _ hx))]
    exact hfirst

end Arena.Links

/-! ### All parts -/

namespace Program

/-- The listings of parts of a program are pieces of its listing. -/
structure ListedInPieces (p : Program) : Prop where
  /-- The listing has the lines of all instructions, in program order. -/
  whole : p.text = String.join (p.order.map p.line)
  /-- What is listed up to one instruction, from it to a later one and from there on is all. -/
  split : ∀ a b, a ∈ p.order → b ∈ p.order → p.position a ≤ p.position b →
    ∃ first, p.first? = some first ∧ p.text =
      p.textBetween first (some a) ++ p.textBetween a (some b) ++ p.textBetween b none
  range : ∀ a b body, p.range a b = .ok body → p.Lists body (p.textBetween a (some b))
  piece : ∀ first last, ∃ ids, p.Lists ids (p.textBetween first last)
  /-- Below its heading the listing of a loop has the body and the exit. -/
  loop : ∀ l : Loop, l.head ∈ p.order → l.exit ∈ p.order → p.position l.head ≤ p.position l.exit →
    ∃ body s, p.range l.head l.exit = .ok body ∧
      l.text p = l.head.text ++ " .. " ++ l.exit.text ++ "\n" ++ s ∧ p.Lists (body ++ [l.exit]) s
  /-- Linked slots have the same listings. -/
  linked : ∀ a : Arena, a.Links p → a.text = p.text ∧
    ∀ first last, a.textBetween first last = p.textBetween first last

theorem listedInPieces (p : Program) : p.ListedInPieces where
  whole := rfl
  split _ _ := exists_text_eq_append
  range a b body h := by
    rw [textBetween_of_range h]
    exact lists_textOf ⟨_, _, (order_of_range h).symm⟩
  piece := exists_lists_textBetween
  loop l hhead hexit hle := by
    obtain ⟨body, hbody⟩ := exists_range_iff.2 ⟨hhead, hexit, hle⟩
    refine ⟨body, _, hbody, rfl, ?_⟩
    rw [textBetween_next? hbody]
    refine lists_textOf ⟨p.order.take (p.position l.head), p.order.drop (p.position l.exit + 1), ?_⟩
    exact Eq.trans (by simp) (order_of_range hbody).symm
  linked _ h := ⟨h.text, h.textBetween⟩

/-- The last of three instructions is the second one that is jumped to, and jumps to one that is not
there. -/
example : (Program.ofList [.goto ⟨2⟩ (.var ⟨"done", .bool⟩), .goto ⟨0⟩ (.bool true),
    { Instruction.goto ⟨2⟩ (.bool true) with targets := [⟨2⟩, ⟨9⟩] }]).textBetween ⟨2⟩ none =
      "        // #2\n     2: GOTO 2, #9?\n" := by
  decide +kernel

end Program

end LoopInduction
