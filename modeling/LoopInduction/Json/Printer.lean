import LoopInduction.Json.Quoted
import LoopInduction.Json.Value

/-!
# Printing values

* `Value.compact` writes no blanks at all.
* `Value.pretty` writes every item and member on a line of its own, two blanks further in than its
  bracket, and a blank after each colon; empty brackets stay closed.

A gap has no text of its own and is written as `null`.
-/

namespace LoopInduction.Json

/-- An integer in decimal digits. -/
def intText (n : Int) : List Char :=
  (toString n).toList

/-- A truth value. -/
def boolText (b : Bool) : List Char :=
  if b then ['t', 'r', 'u', 'e'] else ['f', 'a', 'l', 's', 'e']

/-- The text of `null`. -/
def nullText : List Char :=
  ['n', 'u', 'l', 'l']

/-- A key between quotation marks. -/
def keyText (key : Option String) : List Char :=
  quote (key.getD "").toList

/-- The start of a line at some depth. -/
def newLine (depth : Nat) : List Char :=
  '\n' :: List.replicate (2 * depth) ' '

namespace Value

mutual

/-- The text of a value without blanks. -/
def compact : Value → List Char
  | .null | .gap _ => nullText
  | .bool b => boolText b
  | .int n => intText n
  | .string s => quote s.toList
  | .array [] => ['[', ']']
  | .array (v :: vs) => '[' :: v.compact ++ compactItems vs
  | .object [] => ['{', '}']
  | .object ((k, v) :: ms) => '{' :: keyText k ++ ':' :: v.compact ++ compactMembers ms

/-- The items after the first one, and the closing bracket. -/
def compactItems : List Value → List Char
  | [] => [']']
  | v :: vs => ',' :: v.compact ++ compactItems vs

/-- The members after the first one, and the closing bracket. -/
def compactMembers : List Member → List Char
  | [] => ['}']
  | (k, v) :: ms => ',' :: keyText k ++ ':' :: v.compact ++ compactMembers ms

end

mutual

/-- The text of a value with line breaks, inside `depth` brackets. -/
def pretty (depth : Nat) : Value → List Char
  | .null | .gap _ => nullText
  | .bool b => boolText b
  | .int n => intText n
  | .string s => quote s.toList
  | .array [] => ['[', ']']
  | .array (v :: vs) => '[' :: newLine (depth + 1) ++ v.pretty (depth + 1) ++ prettyItems depth vs
  | .object [] => ['{', '}']
  | .object ((k, v) :: ms) =>
    '{' :: newLine (depth + 1) ++ keyText k ++ ':' :: ' ' :: v.pretty (depth + 1)
      ++ prettyMembers depth ms

/-- The items after the first one, and the closing bracket on a line of its own. -/
def prettyItems (depth : Nat) : List Value → List Char
  | [] => newLine depth ++ [']']
  | v :: vs => ',' :: newLine (depth + 1) ++ v.pretty (depth + 1) ++ prettyItems depth vs

/-- The members after the first one, and the closing bracket on a line of its own. -/
def prettyMembers (depth : Nat) : List Member → List Char
  | [] => newLine depth ++ ['}']
  | (k, v) :: ms =>
    ',' :: newLine (depth + 1) ++ keyText k ++ ':' :: ' ' :: v.pretty (depth + 1)
      ++ prettyMembers depth ms

end

/-- The text of a value without blanks. -/
def compactText (v : Value) : String :=
  String.ofList v.compact

/-- The text of a value with line breaks. -/
def prettyText (v : Value) : String :=
  String.ofList (v.pretty 0)

end Value

end LoopInduction.Json
