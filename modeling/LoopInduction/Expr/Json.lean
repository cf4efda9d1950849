import LoopInduction.Expr.Basic
import LoopInduction.Json.Record

/-!
# Types and expressions as JSON

`Ty.toJson`, `Variable.toJson` and `Expr.toJson` write, `Ty.ofJson?`, `Variable.ofJson?` and
`Expr.ofJson?` read. Reading accepts more than writing produces (`Json.Value.fields?`,
`Json.Value.bareCase?`), and at most `depth` nested brackets.
-/

namespace LoopInduction

open Json (Value)

/-- Writes a type. -/
def Ty.toJson : Ty → Value
  | .bool => .string "Bool"
  | .signed width => .case "Signed" (.record [("width", .nat width.toNat)])
  | .unsigned width => .case "Unsigned" (.record [("width", .nat width.toNat)])
  | .float width => .case "Float" (.record [("width", .nat width.toNat)])
  | .pointer pointee => .case "Pointer" pointee.toJson
  | .array element size =>
    .case "Array" (.record [("element", element.toJson), ("size", .nat size.toNat)])
  | .named name => .case "Named" (.string name)
  | .empty => .string "Empty"

/-- The type that a bare name stands for. -/
def Ty.ofBareName? : String → Option Ty
  | "Bool" => some .bool
  | "Empty" => some .empty
  | _ => none

/-- Reads a type. -/
def Ty.ofJson? (loose : Bool) : Nat → Value → Option Ty
  | _, .string name => Ty.ofBareName? name
  | d + 1, .object [(some name, payload)] =>
    match name with
    | "Signed" => (payload.field? d "width").bind (·.uint32?) |>.map .signed
    | "Unsigned" => (payload.field? d "width").bind (·.uint32?) |>.map .unsigned
    | "Float" => (payload.field? d "width").bind (·.uint32?) |>.map .float
    | "Pointer" => (Ty.ofJson? loose d payload).map .pointer
    | "Array" => match d with
      | 0 => none
      | d + 1 => match payload.fields? ["element", "size"] with
        | some [some element, some size] => do
          return .array (← Ty.ofJson? loose d element) (← size.uint64?)
        | _ => none
    | "Named" => payload.string?.map .named
    | name => if payload.isNoPayload loose then Ty.ofBareName? name else none
  | _, _ => none

/-- Writes a variable. -/
def Variable.toJson (v : Variable) : Value :=
  .record [("identifier", .string v.name), ("ty", v.type.toJson)]

/-- Reads a variable. -/
def Variable.ofJson? (loose : Bool) (depth : Nat) (v : Value) : Option Variable :=
  match depth, v.fields? ["identifier", "ty"] with
  | d + 1, some [some name, some type] => do
    return { name := ← name.string?, type := ← Ty.ofJson? loose d type }
  | _, _ => none

/-- The name of an operator. -/
def BinaryOp.tag : BinaryOp → String
  | .add => "Add"
  | .sub => "Sub"
  | .mul => "Mul"
  | .div => "Div"
  | .mod => "Mod"
  | .eq => "Eq"
  | .ne => "Ne"
  | .lt => "Lt"
  | .le => "Le"
  | .gt => "Gt"
  | .ge => "Ge"
  | .and => "And"
  | .or => "Or"

/-- The operator with a given name. -/
def BinaryOp.ofTag? : String → Option BinaryOp
  | "Add" => some .add
  | "Sub" => some .sub
  | "Mul" => some .mul
  | "Div" => some .div
  | "Mod" => some .mod
  | "Eq" => some .eq
  | "Ne" => some .ne
  | "Lt" => some .lt
  | "Le" => some .le
  | "Gt" => some .gt
  | "Ge" => some .ge
  | "And" => some .and
  | "Or" => some .or
  | _ => none

@[simp] theorem BinaryOp.ofTag?_tag (op : BinaryOp) : BinaryOp.ofTag? op.tag = some op := by
  cases op <;> rfl

/-- Reads an operator. -/
def BinaryOp.ofJson? (loose : Bool) (depth : Nat) (v : Value) : Option BinaryOp :=
  (v.bareCase? loose depth).bind BinaryOp.ofTag?

/-- Writes an expression. -/
def Expr.toJson : Expr → Value
  | .nil => .string "Nil"
  | .bool b => .case "Bool" (.bool b)
  | .int value type => .case "Int" (.record [("value", .int value.toInt), ("ty", type.toJson)])
  | .var v => .case "Symbol" v.toJson
  | .not e => .case "Not" e.toJson
  | .binary op lhs rhs =>
    .case "Binary" (.record [("op", .string op.tag), ("lhs", lhs.toJson), ("rhs", rhs.toJson)])
  | .nondet type => .case "Nondet" type.toJson
  | .foreign text type => .case "Other" (.record [("text", .string text), ("ty", type.toJson)])

/-- Reads an expression. -/
def Expr.ofJson? (loose : Bool) : Nat → Value → Option Expr
  | _, .string name => if name = "Nil" then some .nil else none
  | d + 1, .object [(some name, payload)] =>
    match name with
    | "Nil" => if payload.isNoPayload loose then some .nil else none
    | "Bool" => payload.bool?.map .bool
    | "Int" => match d, payload.fields? ["value", "ty"] with
      | d + 1, some [some value, some type] => do
        return .int (← value.int64?) (← Ty.ofJson? loose d type)
      | _, _ => none
    | "Symbol" => (Variable.ofJson? loose d payload).map .var
    | "Not" => (Expr.ofJson? loose d payload).map .not
    | "Binary" => match d with
      | 0 => none
      | d + 1 => match payload.fields? ["op", "lhs", "rhs"] with
        | some [some op, some lhs, some rhs] => do
          return .binary (← BinaryOp.ofJson? loose d op) (← Expr.ofJson? loose d lhs)
            (← Expr.ofJson? loose d rhs)
        | _ => none
    | "Nondet" => (Ty.ofJson? loose d payload).map .nondet
    | "Other" => match d, payload.fields? ["text", "ty"] with
      | d + 1, some [some text, some type] => do
        return .foreign (← text.string?) (← Ty.ofJson? loose d type)
      | _, _ => none
    | _ => none
  | _, _ => none

end LoopInduction
