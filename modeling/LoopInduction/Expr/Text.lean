import LoopInduction.Expr.Basic

/-!
# The text of types and expressions

`Ty.text` and `Expr.text` are what listings show. The text of an expression carries no brackets
around the operands of a binary operator, so it is for reading only and does not determine the
expression.
-/

namespace LoopInduction

/-- The text of a type. -/
def Ty.text : Ty → String
  | .bool => "bool"
  | .signed width => "signedbv_" ++ toString width.toNat
  | .unsigned width => "unsignedbv_" ++ toString width.toNat
  | .float width => "floatbv_" ++ toString width.toNat
  | .pointer pointee => pointee.text ++ "*"
  | .array element size => element.text ++ "[" ++ toString size.toNat ++ "]"
  | .named name => name
  | .empty => "empty"

/-- The sign of an operator. -/
def BinaryOp.sign : BinaryOp → String
  | .add => "+"
  | .sub => "-"
  | .mul => "*"
  | .div => "/"
  | .mod => "%"
  | .eq => "=="
  | .ne => "!="
  | .lt => "<"
  | .le => "<="
  | .gt => ">"
  | .ge => ">="
  | .and => "&&"
  | .or => "||"

/-- The text of an expression. -/
def Expr.text : Expr → String
  | .nil => "nil"
  | .bool b => if b then "TRUE" else "FALSE"
  | .int value _ => toString value.toInt
  | .var v => v.name
  | .not e => "!(" ++ e.text ++ ")"
  | .binary op lhs rhs => lhs.text ++ " " ++ op.sign ++ " " ++ rhs.text
  | .nondet t => "nondet_" ++ t.text ++ "()"
  | .foreign text _ => text

end LoopInduction
