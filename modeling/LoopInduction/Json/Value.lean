/-!
# JSON values

`Value` is a JSON value as it stands in a text: members keep their order and their repetitions.
A reader never refuses a text as a whole. Where the text holds no value it leaves a `Gap`, so that
everything in front of the first fault can be looked at before the fault is met.

* `Value.intact` says that a value is well-formed throughout, `Value.storable` that every part of it
  can also be held as data.
-/

namespace LoopInduction.Json

/-- Why there is no value at some place of a text. -/
inductive Gap
  /-- A number that is no integer of 64 bits: written with a fraction or an exponent, larger, or a
  negative zero. -/
  | inexact
  /-- Well-formed text that stands for nothing: half of a surrogate pair, a number out of range. -/
  | meaningless
  /-- The text is not JSON from here on. -/
  | broken
  deriving DecidableEq, Inhabited

/-- A JSON value. An integer that was read has 64 bits, with or without a sign. A key is `none`
where it holds half of a surrogate pair. -/
inductive Value
  | null
  | bool (b : Bool)
  | int (n : Int)
  | string (s : String)
  | array (items : List Value)
  | object (members : List (Option String × Value))
  | gap (why : Gap)
  deriving Inhabited

/-- A member of an object. -/
abbrev Member := Option String × Value

namespace Value

mutual

/-- Whether the text of the value is well-formed throughout. -/
def intact : Value → Bool
  | .gap why => why != .broken
  | .array items => intactItems items
  | .object members => intactMembers members
  | .null | .bool _ | .int _ | .string _ => true

/-- Whether every item is intact. -/
def intactItems : List Value → Bool
  | [] => true
  | v :: vs => v.intact && intactItems vs

/-- Whether the value of every member is intact. -/
def intactMembers : List Member → Bool
  | [] => true
  | (_, v) :: ms => v.intact && intactMembers ms

end

mutual

/-- Whether all of the value can be held as data with at most `depth` nested brackets: no gap but an
inexact number, and no key without a text. -/
def storable (depth : Nat) : Value → Bool
  | .gap why => why == .inexact
  | .array items => match depth with
    | 0 => false
    | d + 1 => storableItems d items
  | .object members => match depth with
    | 0 => false
    | d + 1 => storableMembers d members
  | .null | .bool _ | .int _ | .string _ => true

/-- Whether every item is storable. -/
def storableItems (depth : Nat) : List Value → Bool
  | [] => true
  | v :: vs => v.storable depth && storableItems depth vs

/-- Whether every member has a key and a storable value. -/
def storableMembers (depth : Nat) : List Member → Bool
  | [] => true
  | (k, v) :: ms => k.isSome && v.storable depth && storableMembers depth ms

end

/-- The object with the given members. -/
def record (members : List (String × Value)) : Value :=
  .object (members.map fun m ↦ (some m.1, m.2))

/-- A list of values. -/
def list (f : α → Value) (xs : List α) : Value :=
  .array (xs.map f)

/-- An optional value, `null` when there is none. -/
def option (f : α → Value) : Option α → Value
  | none => .null
  | some a => f a

/-- A natural number. -/
def nat (n : Nat) : Value :=
  .int n

end Value

end LoopInduction.Json
