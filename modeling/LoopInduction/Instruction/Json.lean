import LoopInduction.Expr.Json
import LoopInduction.Instruction

/-!
# Instructions as JSON

`Instruction.toJson` writes all fields, `Instruction.ofJson?` takes a default for every field but
the kind. In a listing the id stands in front of the fields (`Instruction.toListedJson`), and the
entry has to be an object (`Instruction.ofListedJson?`). Such an object is taken in as data before
its fields are looked at; so all of it has to be storable, and it is read loosely.
-/

namespace LoopInduction

open Json (Value)

/-! ### Parts of an instruction -/

/-- Writes an id. -/
def InstrId.toJson (id : InstrId) : Value :=
  .nat id.index

/-- Reads an id. -/
def InstrId.ofJson? (v : Value) : Option InstrId :=
  (v.below? UInt32.size).map InstrId.mk

/-- The name of an origin. -/
def Origin.tag : Origin → String
  | source => "SourceProgram"
  | scaffold => "InductionScaffold"
  | copy => "LoopDuplicate"

/-- The origin with a given name. -/
def Origin.ofTag? : String → Option Origin
  | "SourceProgram" => some source
  | "InductionScaffold" => some scaffold
  | "LoopDuplicate" => some copy
  | _ => none

@[simp] theorem Origin.ofTag?_tag (o : Origin) : ofTag? o.tag = some o := by
  cases o <;> rfl

/-- Reads an origin. -/
def Origin.ofJson? (loose : Bool) (depth : Nat) (v : Value) : Option Origin :=
  (v.bareCase? loose depth).bind ofTag?

/-- The name of a kind. -/
def Kind.tag : Kind → String
  | goto => "Goto"
  | assume => "Assume"
  | assert => "Assert"
  | assign => "Assign"
  | skip => "Skip"
  | location => "Location"
  | decl => "Decl"
  | dead => "Dead"
  | call => "FunctionCall"
  | ret => "Return"
  | endFunction => "EndFunction"
  | other => "Other"

/-- The kind with a given name. -/
def Kind.ofTag? : String → Option Kind
  | "Goto" => some goto
  | "Assume" => some assume
  | "Assert" => some assert
  | "Assign" => some assign
  | "Skip" => some skip
  | "Location" => some location
  | "Decl" => some decl
  | "Dead" => some dead
  | "FunctionCall" => some call
  | "Return" => some ret
  | "EndFunction" => some endFunction
  | "Other" => some other
  | _ => none

@[simp] theorem Kind.ofTag?_tag (k : Kind) : ofTag? k.tag = some k := by
  cases k <;> rfl

/-- Reads a kind. -/
def Kind.ofJson? (loose : Bool) (depth : Nat) (v : Value) : Option Kind :=
  (v.bareCase? loose depth).bind ofTag?

/-- Writes a place. -/
def Location.toJson (l : Location) : Value :=
  .record [("file", .string l.file), ("line", .nat l.line.toNat), ("column", .nat l.column.toNat)]

/-- Reads a place. -/
def Location.ofJson? (depth : Nat) (v : Value) : Option Location :=
  match depth, v.fields? ["file", "line", "column"] with
  | _ + 1, some [some file, some line, some column] => do
    return { file := ← file.string?, line := ← line.uint32?, column := ← column.uint32? }
  | _, _ => none

/-- Writes what an instruction works on. -/
def Code.toJson : Code → Value
  | .nil => .string "Nil"
  | .assign lhs rhs => .case "Assign" (.record [("lhs", lhs.toJson), ("rhs", rhs.toJson)])
  | .decl v => .case "Decl" v.toJson
  | .dead v => .case "Dead" v.toJson
  | .call lhs function arguments =>
    .case "FunctionCall" (.record [
      ("lhs", .option Expr.toJson lhs), ("function", .string function),
      ("arguments", .list Expr.toJson arguments)])
  | .ret value => .case "Return" (.option Expr.toJson value)
  | .expr e => .case "Expression" e.toJson

/-- Reads the parts of a call, `lhs` of which may be missing in an object. -/
def Code.callOfJson? (loose : Bool) (depth : Nat) (v : Value) : Option Code :=
  match depth, v.fields? ["lhs", "function", "arguments"] with
  | d + 1, some [lhs, some function, some arguments] => do
    return .call (← Value.orNone (Expr.ofJson? loose d) lhs) (← function.string?)
      (← arguments.items? d (Expr.ofJson? loose))
  | _, _ => none

/-- Reads what an instruction works on. -/
def Code.ofJson? (loose : Bool) : Nat → Value → Option Code
  | _, .string name => if name = "Nil" then some .nil else none
  | d + 1, .object [(some name, payload)] =>
    match name with
    | "Nil" => if payload.isNoPayload loose then some .nil else none
    | "Assign" => match d, payload.fields? ["lhs", "rhs"] with
      | d + 1, some [some lhs, some rhs] => do
        return .assign (← Expr.ofJson? loose d lhs) (← Expr.ofJson? loose d rhs)
      | _, _ => none
    | "Decl" => (Variable.ofJson? loose d payload).map .decl
    | "Dead" => (Variable.ofJson? loose d payload).map .dead
    | "FunctionCall" => Code.callOfJson? loose d payload
    | "Return" => (Value.orNone (Expr.ofJson? loose d) payload).map .ret
    | "Expression" => (Expr.ofJson? loose d payload).map .expr
    | _ => none
  | _, _ => none

/-! ### Instructions -/

namespace Instruction

/-- The names of the fields, in the order in which they are written. -/
def fieldNames : List String :=
  ["kind", "guard", "code", "location", "function", "targets", "origin", "location_number",
    "target_number"]

/-- The fields with their names. -/
def toMembers (i : Instruction) : List (String × Value) :=
  [("kind", .string i.kind.tag),
    ("guard", i.guard.toJson),
    ("code", i.code.toJson),
    ("location", i.location.toJson),
    ("function", .string i.function),
    ("targets", .list InstrId.toJson i.targets),
    ("origin", .string i.origin.tag),
    ("location_number", .nat i.locationNumber.toNat),
    ("target_number", .option (fun n ↦ .nat n.toNat) i.targetNumber)]

/-- Writes an instruction. -/
def toJson (i : Instruction) : Value :=
  .record i.toMembers

/-- Writes an entry of a listing. -/
def toListedJson (id : InstrId) (i : Instruction) : Value :=
  .record (("id", id.toJson) :: i.toMembers)

/-- Reads the fields, all of them but the kind optional. -/
def ofFields? (loose : Bool) (depth : Nat) : List (Option Value) → Option Instruction
  | [some kind, guard, code, location, function, targets, origin, locationNumber,
      targetNumber] => do
    return {
      kind := ← Kind.ofJson? loose depth kind
      guard := ← Value.orDefault (.bool true) (Expr.ofJson? loose depth) guard
      code := ← Value.orDefault .nil (Code.ofJson? loose depth) code
      location := ← Value.orDefault {} (Location.ofJson? depth) location
      function := ← Value.orDefault "" Value.string? function
      targets := ← Value.orDefault [] (Value.items? depth fun _ ↦ InstrId.ofJson?) targets
      origin := ← Value.orDefault .source (Origin.ofJson? loose depth) origin
      locationNumber := ← Value.orDefault 0 Value.uint32? locationNumber
      targetNumber := ← Value.orNone Value.uint32? targetNumber }
  | _ => none

/-- Reads an instruction. -/
def ofJson? (loose : Bool) (depth : Nat) (v : Value) : Option Instruction :=
  match depth, v.fields? fieldNames with
  | d + 1, some fields => ofFields? loose d fields
  | _, _ => none

/-- Reads an entry of a listing. -/
def ofListedJson? (depth : Nat) (v : Value) : Option (InstrId × Instruction) :=
  match depth, v with
  | d + 1, .object members =>
    match v.storable (d + 1), (Value.object members).fields? ("id" :: fieldNames) with
    | true, some (some id :: fields) => do
      return (← InstrId.ofJson? id, ← ofFields? true d fields)
    | _, _ => none
  | _, _ => none

end Instruction

end LoopInduction
