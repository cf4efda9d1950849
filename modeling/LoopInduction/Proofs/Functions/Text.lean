import LoopInduction.Proofs.Functions.Refresh
import LoopInduction.Proofs.Program.Text

/-!
# Listings and target numbers

A listing works out its labels from the program that it lists, and a refresh works out target
numbers and stores them. Both count the instructions that are jumped to in program order, so after a
refresh the listing shows what is stored: in front of an instruction stands its target number, and a
jump shows the target number of each of its targets. A target that is not there has no number; its
id is shown.

Labels and numbers have 32 bits alike, so they agree however many instructions there are.

## Main definitions

* `ShownInFront` : what stands in front of an instruction with a target number.
* `Instruction.ShownWith` : what stands behind it, given how its targets are shown.
* `Program.ShownAs` : how a jump shows a target.
* `Program.ShowsTargetNumbers` : the listing of a program shows the stored numbers.

## Main results

* `Program.showsTargetNumbers_numbered` : so it does of a numbered program.
* `Functions.listings_agree` : listings agree with each other and with the numbers that are stored.
-/

namespace LoopInduction

/-! ### What a listing shows -/

/-- In front of an instruction stands its target number, at the end of six places and with a colon
behind it. Without a number there is as much blank space. -/
inductive ShownInFront : Option UInt32 → String → Prop
  | blank : ShownInFront none "        "
  | number (n : UInt32) : ShownInFront (some n)
    (String.ofList (List.replicate (6 - (toString n).length) ' ') ++ toString n ++ ": ")

theorem shownInFront_margin (number? : Option UInt32) :
    ShownInFront number? (Instruction.margin number?) := by
  cases number? with
  | none =>
    rw [Instruction.margin_none]
    exact .blank
  | some n =>
    rw [Instruction.margin_some, Instruction.labelText_eq]
    exact .number n

namespace Instruction

variable {i : Instruction} {shown : List String}

/-- A jump shows its targets behind `GOTO`, and its guard in front unless it is always taken. An
assumption or assertion shows its guard, any other instruction what it works on. -/
inductive ShownWith (i : Instruction) (shown : List String) : String → Prop
  | always : i.kind = .goto → i.guard = .bool true →
    ShownWith i shown ("GOTO " ++ ", ".intercalate shown)
  | conditional : i.kind = .goto → i.guard ≠ .bool true →
    ShownWith i shown ("IF " ++ i.guard.text ++ " THEN " ++ "GOTO " ++ ", ".intercalate shown)
  | guarded : i.kind = .assume ∨ i.kind = .assert →
    ShownWith i shown (i.kind.text ++ " " ++ i.guard.text)
  | other : i.kind ∉ [Kind.goto, .assume, .assert] → ShownWith i shown (i.kind.text ++ i.code.text)

theorem shownWith_operation : i.ShownWith shown (i.operation shown) := by
  by_cases hgoto : i.kind = .goto
  · rw [operation_of_goto hgoto]
    by_cases hguard : i.guard = .bool true
    · rw [if_pos hguard, String.empty_append]
      exact .always hgoto hguard
    · rw [if_neg hguard]
      exact .conditional hgoto hguard
  · by_cases hguarded : i.kind = .assume ∨ i.kind = .assert
    · rw [operation_of_guarded hguarded]
      exact .guarded hguarded
    · have hother : i.kind ∉ [Kind.goto, .assume, .assert] := by
        simpa using ⟨hgoto, not_or.1 hguarded⟩
      rw [operation_of_notMem hother]
      exact .other hother

end Instruction

namespace Program

variable {p : Program} {location : Nat} {id : InstrId} {i : Instruction}

/-- A target is shown by the number that is stored with it, or by its id if it is not there. -/
inductive ShownAs (p : Program) (t : InstrId) : String → Prop
  | number {i : Instruction} {n : UInt32} (hi : p.get? t = some i) (hn : i.targetNumber = some n) :
    ShownAs p t (toString n)
  | dangling (h : p.get? t = none) : ShownAs p t ("#" ++ toString t.index ++ "?")

/-- The lines of an instruction have its target number in front and show its targets by theirs. -/
def ShowsTargetNumbers (p : Program) : Prop :=
  ∀ id i, p.get? id = some i → ∃ front shown operation, ShownInFront i.targetNumber front ∧
    List.Forall₂ p.ShownAs i.targets shown ∧ i.ShownWith shown operation ∧
    p.line id = i.heading id ++ "\n" ++ front ++ operation ++ "\n"

/-! ### What a refresh stores -/

/-- The number that is stored with an instruction is its label. -/
theorem targetNumber_of_numbered (hi : (p.numbered location).get? id = some i) :
    i.targetNumber = (p.numbered location).label? id := by
  rw [label?_numbered]
  rw [numbered_eq, get?_map] at hi
  obtain ⟨j, -, rfl⟩ := Option.map_eq_some_iff.1 hi
  rfl

/-- A target of an instruction is shown by its label if it is there. -/
theorem shownAs_targetText {t : InstrId} (hi : (p.numbered location).get? id = some i)
    (ht : t ∈ i.targets) :
    (p.numbered location).ShownAs t (Instruction.targetText (p.numbered location).label? t) := by
  cases hj : (p.numbered location).get? t with
  | none =>
    have hgone : t ∉ (p.numbered location).order := fun hmem ↦ by
      rw [get?_eq_some_fetch hmem] at hj
      cases hj
    rw [Instruction.targetText_of_eq_none (label?_eq_none_of_notMem hgone)]
    exact .dangling hj
  | some j =>
    have hlabelled : t ∈ (p.numbered location).labelled :=
      mem_labelled_iff.2 ⟨mem_order_iff_get?.2 ⟨j, hj⟩, id, i, hi, ht⟩
    obtain ⟨n, hn⟩ := Option.isSome_iff_exists.1 (label?_isSome_iff.2 hlabelled)
    rw [Instruction.targetText_of_eq_some hn]
    exact .number hj ((targetNumber_of_numbered hj).trans hn)

theorem showsTargetNumbers_numbered : (p.numbered location).ShowsTargetNumbers := by
  intro id i hi
  have htargets : List.Forall₂ (p.numbered location).ShownAs i.targets
      (i.targets.map (Instruction.targetText (p.numbered location).label?)) := by
    rw [List.forall₂_map_right_iff, List.forall₂_same]
    exact fun t ht ↦ shownAs_targetText hi ht
  refine ⟨_, _, _, shownInFront_margin i.targetNumber, htargets,
    Instruction.shownWith_operation, ?_⟩
  rw [line, fetch_eq hi, Instruction.text, ← targetNumber_of_numbered hi]

end Program

namespace Functions

/-- The listing of a part of a program is cut out of the listing of the whole program: the parts up
to an instruction, on to a later one and from there to the end give the listing of the program, and
that of a loop has its body and its exit. After a refresh the listing of every function shows the
target numbers that are stored with its instructions. -/
theorem listings_agree (fs : Functions) : (∀ p : Program, p.ListedInPieces) ∧
    ∀ name g, fs.refresh.get? name = some g → g.body.ShowsTargetNumbers := by
  refine ⟨Program.listedInPieces, fun name g hg ↦ ?_⟩
  obtain ⟨location, hget⟩ := get?_refresh fs name
  rw [hg] at hget
  obtain ⟨f, -, rfl⟩ := Option.map_eq_some_iff.1 hget.symm
  exact Program.showsTargetNumbers_numbered

end Functions

end LoopInduction
