import LoopInduction.Expr.Basic

/-!
# Instructions

One step of a function body. A jump names its targets by the ids of instructions, never by position,
so inserting or removing instructions cannot move an edge onto another instruction. A jump goes to
one of its targets when its guard holds and falls through to the next instruction otherwise.
Instructions that the transformations write carry their `Origin`.
-/

namespace LoopInduction

/-- Names an instruction of one program, for the life of the program. -/
@[ext]
structure InstrId where
  index : Nat
  deriving DecidableEq, Inhabited

/-- An id as texts show it. -/
def InstrId.text (id : InstrId) : String :=
  "#" ++ toString id.index

/-- Where an instruction comes from. -/
inductive Origin
  /-- The front end. -/
  | source
  /-- The transformation: unconstrained state, assumptions, jumps and markers. -/
  | scaffold
  /-- A copy of a loop body. -/
  | copy
  deriving DecidableEq, Inhabited

/-- A place in a source file. Line and column zero are unknown. -/
structure Location where
  file : String := ""
  line : UInt32 := 0
  column : UInt32 := 0
  deriving DecidableEq, Inhabited

namespace Location

/-- Whether nothing is known, whatever the column says. -/
def isUnknown (l : Location) : Bool :=
  l.file == "" && l.line == 0

/-- A place as texts show it. -/
def text (l : Location) : String :=
  if l.isUnknown then "<unknown>"
  else l.file ++ ":" ++ toString l.line.toNat
    ++ (if l.column = 0 then "" else ":" ++ toString l.column.toNat)

end Location

/-- What an instruction does. -/
inductive Kind
  | goto
  | assume
  | assert
  | assign
  | skip
  | location
  | decl
  | dead
  | call
  | ret
  | endFunction
  | other
  deriving DecidableEq, Inhabited

/-- A kind as listings show it. -/
def Kind.text : Kind → String
  | .goto => "GOTO"
  | .assume => "ASSUME"
  | .assert => "ASSERT"
  | .assign => "ASSIGN"
  | .skip => "SKIP"
  | .location => "LOCATION"
  | .decl => "DECL"
  | .dead => "DEAD"
  | .call => "FUNCTION_CALL"
  | .ret => "RETURN"
  | .endFunction => "END_FUNCTION"
  | .other => "OTHER"

/-- What an instruction works on. The guard is kept apart, on the instruction itself. -/
inductive Code
  | nil
  | assign (lhs rhs : Expr)
  | decl (v : Variable)
  | dead (v : Variable)
  | call (lhs : Option Expr) (function : String) (arguments : List Expr)
  | ret (value : Option Expr)
  | expr (e : Expr)
  deriving DecidableEq, Inhabited

/-- An instruction. Only a jump makes use of its targets; the two numbers are kept up to date by
`Functions.refresh` alone. -/
structure Instruction where
  kind : Kind
  guard : Expr := .bool true
  code : Code := .nil
  location : Location := {}
  /-- The function that the instruction belongs to. -/
  function : String := ""
  targets : List InstrId := []
  origin : Origin := .source
  locationNumber : UInt32 := 0
  targetNumber : Option UInt32 := none
  deriving DecidableEq, Inhabited

namespace Instruction

/-- Does nothing. -/
def skip : Instruction := { kind := .skip }

/-- `lhs := rhs`. -/
def assign (lhs rhs : Expr) : Instruction := { kind := .assign, code := .assign lhs rhs }

section

variable (lhs rhs : Expr)

@[simp] theorem kind_assign : (assign lhs rhs).kind = .assign := rfl

@[simp] theorem guard_assign : (assign lhs rhs).guard = .bool true := rfl

@[simp] theorem code_assign : (assign lhs rhs).code = .assign lhs rhs := rfl

@[simp] theorem targets_assign : (assign lhs rhs).targets = [] := rfl

end

/-- Goes on only where the condition holds. -/
def assume (condition : Expr) : Instruction := { kind := .assume, guard := condition }

section

variable (condition : Expr)

@[simp] theorem kind_assume : (assume condition).kind = .assume := rfl

@[simp] theorem guard_assume : (assume condition).guard = condition := rfl

@[simp] theorem code_assume : (assume condition).code = .nil := rfl

@[simp] theorem targets_assume : (assume condition).targets = [] := rfl

end

/-- Requires the condition to hold. -/
def assert (condition : Expr) : Instruction := { kind := .assert, guard := condition }

/-- Jumps to `target` if the guard holds. -/
def goto (target : InstrId) (guard : Expr) : Instruction :=
  { kind := .goto, guard := guard, targets := [target] }

/-- Calls a function. -/
def call (lhs : Option Expr) (function : String) (arguments : List Expr) : Instruction :=
  { kind := .call, code := .call lhs function arguments }

/-- Ends the function. -/
def endFunction : Instruction := { kind := .endFunction }

/-- The instruction as scaffolding that stands where `i` stands. -/
def scaffoldAt (new i : Instruction) : Instruction :=
  { new with location := i.location, function := i.function, origin := .scaffold }

section

variable (new i : Instruction)

@[simp] theorem kind_scaffoldAt : (new.scaffoldAt i).kind = new.kind := rfl

@[simp] theorem guard_scaffoldAt : (new.scaffoldAt i).guard = new.guard := rfl

@[simp] theorem code_scaffoldAt : (new.scaffoldAt i).code = new.code := rfl

@[simp] theorem targets_scaffoldAt : (new.scaffoldAt i).targets = new.targets := rfl

@[simp] theorem location_scaffoldAt : (new.scaffoldAt i).location = i.location := rfl

@[simp] theorem function_scaffoldAt : (new.scaffoldAt i).function = i.function := rfl

@[simp] theorem origin_scaffoldAt : (new.scaffoldAt i).origin = .scaffold := rfl

end

variable (i : Instruction)

/-- Whether the instruction is a jump. -/
def isGoto : Bool := i.kind == .goto

/-- Whether the instruction is an assertion. -/
def isAssert : Bool := i.kind == .assert

/-- Whether the instruction is an assumption. -/
def isAssume : Bool := i.kind == .assume

/-- Whether the instruction does nothing. -/
def isSkip : Bool := i.kind == .skip

/-- Whether the instruction is a jump that may or may not be taken. -/
def isConditionalJump : Bool := i.isGoto && !i.guard.isTrue

/-- Whether the instruction is a jump that is always taken. -/
def isAlwaysTaken : Bool := i.isGoto && i.guard.isTrue

/-- Whether a transformation wrote the instruction around a loop. -/
def isScaffold : Bool := i.origin == .scaffold

/-- A copy of everything but the numbers. The targets stay as they are. -/
def duplicate : Instruction :=
  { i with origin := .copy, locationNumber := 0, targetNumber := none }

/-- Replaces the target `old` by `new` and drops repetitions. Without `old` nothing changes. -/
def redirect (old new : InstrId) : Instruction :=
  if old ∈ i.targets then
    { i with targets := (i.targets.map fun t ↦ if t = old then new else t).eraseDups }
  else i

end Instruction

end LoopInduction
