import LoopInduction.Expr.Text
import LoopInduction.Program.Basic

/-!
# The text of a program

Every instruction takes two lines: its id with what is known about it, and what it does behind its
label. The targets of jumps are labelled 1, 2, 3, … in program order, over the whole program even
where only a part is shown. A target that the program does not have is shown by its id.

* `Program.text` is the whole listing, `Program.textOf` that of some instructions.
* `Program.textBetween` is the listing from one instruction up to another or to the end.
-/

namespace LoopInduction

/-- What an instruction works on, as it stands behind the kind. -/
def Code.text : Code → String
  | .nil => ""
  | .assign lhs rhs => " " ++ lhs.text ++ " := " ++ rhs.text
  | .decl v | .dead v => " " ++ v.name
  | .call lhs function arguments =>
    ": " ++ (match lhs with | none => "" | some e => e.text ++ " := ")
      ++ function ++ "(" ++ ", ".intercalate (arguments.map Expr.text) ++ ")"
  | .ret none => ""
  | .ret (some e) => ": " ++ e.text
  | .expr e => " " ++ e.text

/-- A mark behind instructions that the front end did not write. -/
def Origin.text : Origin → String
  | .source => ""
  | .scaffold => " (k-induction)"
  | .copy => " (loop copy)"

namespace Instruction

/-- A number at the end of six places. -/
def labelText (label : UInt32) : String :=
  String.ofList ((toString label).toList.leftpad 6 ' ')

/-- A number is filled up with blanks to six places. -/
theorem labelText_eq (label : UInt32) : labelText label =
    String.ofList (List.replicate (6 - (toString label).length) ' ') ++ toString label := by
  rw [labelText, List.leftpad, String.length_toList, String.ofList_append, String.ofList_toList]

/-- What stands in front of an instruction: its label, or as much blank space. -/
def margin : Option UInt32 → String
  | none => "        "
  | some label => labelText label ++ ": "

@[simp] theorem margin_none : margin none = "        " := rfl

@[simp] theorem margin_some (label : UInt32) : margin (some label) = labelText label ++ ": " := rfl

/-- A target by its label, or by its id if it has none. -/
def targetText (label? : InstrId → Option UInt32) (t : InstrId) : String :=
  match label? t with
  | none => t.text ++ "?"
  | some label => toString label

section

variable {label? : InstrId → Option UInt32} {t : InstrId}

theorem targetText_of_eq_none (h : label? t = none) : targetText label? t = t.text ++ "?" := by
  rw [targetText, h]

theorem targetText_of_eq_some {label : UInt32} (h : label? t = some label) :
    targetText label? t = toString label := by
  rw [targetText, h]

end

variable (i : Instruction)

/-- The line above an instruction: its id, where it comes from and who wrote it. -/
def heading (id : InstrId) : String :=
  let place := if i.location.isUnknown then "" else " " ++ i.location.text
  "        // " ++ id.text ++ place ++ i.origin.text

/-- What an instruction does, given how its targets are shown. -/
def operation (targets : List String) : String :=
  match i.kind with
  | .goto =>
    (if i.guard.isTrue then "" else "IF " ++ i.guard.text ++ " THEN ")
      ++ "GOTO " ++ ", ".intercalate targets
  | .assume | .assert => i.kind.text ++ " " ++ i.guard.text
  | _ => i.kind.text ++ i.code.text

section

variable {i} {targets : List String}

/-- A jump shows its targets, behind its guard if it is not always taken. -/
theorem operation_of_goto (h : i.kind = .goto) : i.operation targets =
    (if i.guard = .bool true then "" else "IF " ++ i.guard.text ++ " THEN ")
      ++ "GOTO " ++ ", ".intercalate targets := by
  simp only [operation, h, Expr.isTrue_eq_true_iff]

/-- An assumption or assertion shows its guard. -/
theorem operation_of_guarded (h : i.kind = .assume ∨ i.kind = .assert) :
    i.operation targets = i.kind.text ++ " " ++ i.guard.text := by
  rcases h with h | h <;> simp only [operation, h]

/-- All others show what they work on. -/
theorem operation_of_notMem (h : i.kind ∉ [Kind.goto, .assume, .assert]) :
    i.operation targets = i.kind.text ++ i.code.text := by
  rw [operation]
  split <;> simp_all

end

/-- The two lines of an instruction, given the labels of the program. -/
def text (label? : InstrId → Option UInt32) (id : InstrId) : String :=
  i.heading id ++ "\n" ++ margin (label? id) ++ i.operation (i.targets.map (targetText label?))
    ++ "\n"

end Instruction

namespace Program

/-- The label of an id, given all that have one. -/
def labelAmong? (labelled : List InstrId) (id : InstrId) : Option UInt32 :=
  (labelled.idxOf? id).map fun k ↦ .ofNat (k + 1)

variable (p : Program)

/-- The instructions that some instruction jumps to, in order. -/
def labelled : List InstrId :=
  p.order.filter fun id ↦ p.entries.any (id ∈ ·.2.targets)

/-- The label of an instruction that is jumped to: its place among them, counted from 1. -/
def label? (id : InstrId) : Option UInt32 :=
  labelAmong? p.labelled id

/-- The listing of some instructions. -/
def textOf (ids : List InstrId) : String :=
  let labelled := p.labelled
  String.join (ids.map fun id ↦ (p.fetch id).text (labelAmong? labelled) id)

/-- The listing of the program. -/
def text : String :=
  p.textOf p.order

/-- The listing from `first` up to, and without, `last`; to the end if there is no `last`. -/
def textBetween (first : InstrId) (last : Option InstrId) : String :=
  p.textOf ((p.order.dropWhile (· ≠ first)).takeWhile (some · ≠ last))

end Program

end LoopInduction
