import LoopInduction.Json.Token

/-!
# Reading values

The reader is a machine that takes one token at a time and keeps the brackets that are still open.
It accepts every sequence of tokens: at the first token that cannot stand where it does, all open
brackets are closed around a `broken` gap and the rest is left alone.

* `Reader.step` takes one token, `Reader.finish` is the value that stands when the text ends.
* `Reading.ofText` is the value of a text, and whether anything follows it.
-/

namespace LoopInduction.Json

/-- A bracket that is still open, with what has been read inside it, last first. -/
inductive Frame
  | array (items : List Value)
  /-- An object in which the value of `key` comes next. -/
  | object (members : List Member) (key : Option String)

/-- Puts the value that comes next into a bracket and closes it. -/
def Frame.close : Frame → Value → Value
  | .array items, v => .array (v :: items).reverse
  | .object members key, v => .object ((key, v) :: members).reverse

/-- What the reader expects, with the brackets around it, innermost first. -/
inductive Reader
  | value (outer : List Frame)
  /-- The first item of an array, or its end. -/
  | firstItem (outer : List Frame)
  | afterItem (items : List Value) (outer : List Frame)
  /-- The first key of an object, or its end. -/
  | firstKey (outer : List Frame)
  | key (members : List Member) (outer : List Frame)
  | colon (members : List Member) (k : Option String) (outer : List Frame)
  | afterMember (members : List Member) (outer : List Frame)
  /-- The value is complete. -/
  | complete (v : Value)
  /-- Something follows the complete value. -/
  | excess (v : Value)
  /-- The text broke off inside the value. -/
  | broken (v : Value)

namespace Reader

/-- The state after the value that comes next. -/
def supply (v : Value) : List Frame → Reader
  | [] => .complete v
  | .array items :: outer => .afterItem (v :: items) outer
  | .object members k :: outer => .afterMember ((k, v) :: members) outer

/-- The value that a text has which stops inside the given brackets. -/
def breakOff (frames : List Frame) : Value :=
  frames.foldl (fun v f ↦ f.close v) (.gap .broken)

/-- Takes a token where a value may begin. -/
def begin (outer : List Frame) : Token → Reader
  | .openArray => .firstItem outer
  | .openObject => .firstKey outer
  | .scalar v => supply v outer
  | .string (some s) => supply (.string s) outer
  | .string none => supply (.gap .meaningless) outer
  | .closeArray | .closeObject | .comma | .colon | .stray => .broken (breakOff outer)

/-- Takes one token. -/
def step : Reader → Token → Reader
  | .value outer, t => begin outer t
  | .firstItem outer, .closeArray => supply (.array []) outer
  | .firstItem outer, t => begin (.array [] :: outer) t
  | .afterItem items outer, .comma => .value (.array items :: outer)
  | .afterItem items outer, .closeArray => supply (.array items.reverse) outer
  | .afterItem items outer, _ => .broken (breakOff (.array items :: outer))
  | .firstKey outer, .closeObject => supply (.object []) outer
  | .firstKey outer, .string k => .colon [] k outer
  | .firstKey outer, _ => .broken (breakOff (.object [] none :: outer))
  | .key members outer, .string k => .colon members k outer
  | .key members outer, _ => .broken (breakOff (.object members none :: outer))
  | .colon members k outer, .colon => .value (.object members k :: outer)
  | .colon members k outer, _ => .broken (breakOff (.object members k :: outer))
  | .afterMember members outer, .comma => .key members outer
  | .afterMember members outer, .closeObject => supply (.object members.reverse) outer
  | .afterMember members outer, _ => .broken (breakOff (.object members none :: outer))
  | .complete v, _ => .excess v
  | .excess v, _ => .excess v
  | .broken v, _ => .broken v

end Reader

/-- What a text holds: its value, and whether nothing follows it. -/
structure Reading where
  value : Value
  alone : Bool

/-- What stands when the text ends in some state. -/
def Reader.finish : Reader → Reading
  | .complete v => ⟨v, true⟩
  | .excess v => ⟨v, false⟩
  | .broken v => ⟨v, true⟩
  | .value outer | .firstItem outer => ⟨breakOff outer, true⟩
  | .afterItem items outer => ⟨breakOff (.array items :: outer), true⟩
  | .firstKey outer => ⟨breakOff (.object [] none :: outer), true⟩
  | .key members outer | .afterMember members outer =>
    ⟨breakOff (.object members none :: outer), true⟩
  | .colon members k outer => ⟨breakOff (.object members k :: outer), true⟩

/-- Reads a text. -/
def Reading.ofText (text : List Char) : Reading :=
  ((Token.scan text).foldl Reader.step (.value [])).finish

end LoopInduction.Json
