/-!
# Types and expressions

Only the shapes that the loop transformations look at are modelled structurally; anything else the
front end writes is carried through as a `foreign` expression, a text with a type.

* `Ty`, `Variable`, `BinaryOp` and `Expr` are the syntax. Widths, array sizes and integer values are
  machine words, so a value that exists can always be written and read back.
* `Expr.type` is the type of an expression, read off its head.
-/

namespace LoopInduction

/-- The type of a value. -/
inductive Ty
  | bool
  | signed (width : UInt32)
  | unsigned (width : UInt32)
  | float (width : UInt32)
  | pointer (pointee : Ty)
  | array (element : Ty) (size : UInt64)
  /-- A structure, union or type name that the front end resolved. -/
  | named (name : String)
  | empty
  deriving DecidableEq, Inhabited

/-- A typed variable. -/
structure Variable where
  name : String
  type : Ty
  deriving DecidableEq, Inhabited

/-- A binary operator. -/
inductive BinaryOp
  | add
  | sub
  | mul
  | div
  | mod
  | eq
  | ne
  | lt
  | le
  | gt
  | ge
  | and
  | or
  deriving DecidableEq, Inhabited

/-- Whether the result is a truth value: comparisons and logical connectives. -/
def BinaryOp.isBoolean : BinaryOp → Bool
  | .add | .sub | .mul | .div | .mod => false
  | .eq | .ne | .lt | .le | .gt | .ge | .and | .or => true

/-- An expression. -/
inductive Expr
  | nil
  | bool (value : Bool)
  | int (value : Int64) (type : Ty)
  | var (v : Variable)
  | not (operand : Expr)
  | binary (op : BinaryOp) (lhs rhs : Expr)
  /-- An unconstrained value of a type. -/
  | nondet (type : Ty)
  /-- An expression of the front end that no transformation looks inside. -/
  | foreign (text : String) (type : Ty)
  deriving DecidableEq, Inhabited

namespace Expr

/-- The type of an expression. Arithmetic has the type of its left operand. -/
def type : Expr → Ty
  | .nil => .empty
  | .bool _ | .not _ => .bool
  | .int _ t | .nondet t | .foreign _ t => t
  | .var v => v.type
  | .binary op lhs _ => if op.isBoolean then .bool else lhs.type

/-- Whether the expression is the literal truth. -/
def isTrue : Expr → Bool
  | .bool b => b
  | _ => false

/-- Whether the expression is the empty one. -/
def isNil : Expr → Bool
  | .nil => true
  | _ => false

/-- Whether the expression is a negation. -/
def isNot : Expr → Bool
  | .not _ => true
  | _ => false

@[simp] theorem isTrue_eq_true_iff {e : Expr} : e.isTrue = true ↔ e = .bool true := by
  cases e <;> simp [isTrue]

@[simp] theorem isNot_eq_true_iff {e : Expr} : e.isNot = true ↔ ∃ f, e = .not f := by
  cases e <;> simp [isNot]

end Expr

end LoopInduction
