import LoopInduction.Diagnostics.Failure
import LoopInduction.Json.Reader

/-!
# Reading stored data

`ReadFault` is why stored data cannot be used. `ReadFault.ofText` reads a value out of a JSON text
with a decoder that looks at it in the order of the text. A fault of the value therefore comes
before whatever is wrong behind it, and before anything that follows the value.
-/

namespace LoopInduction

open Json (Value Reading)

/-- Why stored data cannot be used. -/
inductive ReadFault
  /-- There is no file to be read at a path, or it does not hold text. -/
  | unreadable (path : List String)
  /-- The text does not hold settings. -/
  | noConfig
  /-- The text does not hold the data that is asked for. -/
  | noData
  /-- A listing in the text is not a program. -/
  | listing (f : Fault)
  deriving DecidableEq

namespace ReadFault

/-- The number of brackets that may be open at the same time. -/
def nesting : Nat := 127

/-- Reads a text that holds one value and nothing else. -/
def ofText (decode : Nat → Value → Except ReadFault α) (text : String) : Except ReadFault α :=
  let reading := Reading.ofText text.toList
  match decode nesting reading.value with
  | .error fault => .error fault
  | .ok a => if reading.alone then .ok a else .error .noData

/-- A decoder that only fails where there is no data of its kind. -/
def orNoData (decode : Nat → Value → Option α) (depth : Nat) (v : Value) : Except ReadFault α :=
  match decode depth v with
  | some a => .ok a
  | none => .error .noData

end ReadFault

end LoopInduction
