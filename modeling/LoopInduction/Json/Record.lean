import LoopInduction.Json.Value

/-!
# Records, cases and words

How data stands in a JSON value, shared by all decoders.

* A record is an object of its fields in any order, or an array of them in the order of the record.
  Members that are no field are passed over, however often they occur; a field may occur once.
* A case of a sum is an object with one member, named for the case. A case without payload is also
  written as its bare name.
* A word is an integer in the range of its type.

Decoders take the number of brackets that may still be opened, and go down by one with each bracket
they enter. That bound makes them total, and refuses a text nested any deeper.
-/

namespace LoopInduction.Json.Value

/-- The value of the member with a given key. -/
def member? (members : List Member) (name : String) : Option Value :=
  (members.find? (·.1 = some name)).map (·.2)

/-- Whether the members can be those of a record with the given fields. -/
def fits (names : List String) (members : List Member) : Bool :=
  members.all (fun m ↦ match m.1 with
    | none => false
    | some k => names.contains k || m.2.intact) &&
  names.all fun n ↦ (members.filter (·.1 = some n)).length ≤ 1

/-- What a record with the given fields holds for each of them. -/
def fields? (names : List String) : Value → Option (List (Option Value))
  | .object members => if fits names members then some (names.map (member? members)) else none
  | .array items =>
    if items.length ≤ names.length then some ((List.range names.length).map (items[·]?)) else none
  | _ => none

/-- The value of a record's only field. -/
def field? (depth : Nat) (name : String) (v : Value) : Option Value :=
  match depth, v.fields? [name] with
  | _ + 1, some [some x] => some x
  | _, _ => none

/-- A field that may be missing. -/
def orDefault (d : α) (f : Value → Option α) : Option Value → Option α
  | none => some d
  | some v => f v

/-- A field that may be missing or `null`. -/
def orNone (f : Value → Option α) : Option Value → Option (Option α)
  | none | some .null => some none
  | some v => (f v).map some

/-- Whether a value is the payload of a case that has none. A `loose` reader also takes an empty
object for it. -/
def isNoPayload (loose : Bool) : Value → Bool
  | .null => true
  | .object [] => loose
  | _ => false

/-- The name of a case without payload. -/
def bareCase? (loose : Bool) (depth : Nat) : Value → Option String
  | .string name => some name
  | .object [(some name, payload)] =>
    if depth ≠ 0 ∧ payload.isNoPayload loose then some name else none
  | _ => none

/-- The items of an array. -/
def items? (depth : Nat) (f : Nat → Value → Option α) : Value → Option (List α)
  | .array items => match depth with
    | 0 => none
    | d + 1 => items.mapM (f d)
  | _ => none

/-- A truth value. -/
def bool? : Value → Option Bool
  | .bool b => some b
  | _ => none

/-- A text. -/
def string? : Value → Option String
  | .string s => some s
  | _ => none

/-- A natural number below `bound`. -/
def below? (bound : Nat) : Value → Option Nat
  | .int n => if 0 ≤ n ∧ n < bound then some n.toNat else none
  | _ => none

/-- An unsigned word of 32 bits. -/
def uint32? (v : Value) : Option UInt32 :=
  (v.below? UInt32.size).map UInt32.ofNat

/-- An unsigned word of 64 bits. -/
def uint64? (v : Value) : Option UInt64 :=
  (v.below? UInt64.size).map UInt64.ofNat

/-- A signed word of 64 bits. -/
def int64? : Value → Option Int64
  | .int n =>
    if Int64.minValue.toInt ≤ n ∧ n ≤ Int64.maxValue.toInt then some (Int64.ofInt n) else none
  | _ => none

/-- A case with a payload. -/
def case (name : String) (payload : Value) : Value :=
  record [(name, payload)]

end LoopInduction.Json.Value
