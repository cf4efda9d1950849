import LoopInduction.Config.Basic
import LoopInduction.Reading
import LoopInduction.Toml.Statement

/-!
# Settings as text

The settings are the table `k_induction` of a TOML document, which holds nothing else. The table is
written under a heading, by keys with its name in front, or in one value; each of these excludes the
others. A value may also be an array of the settings in their order; further items are not looked
at. What is not set has its default, and no setting is set twice.
-/

namespace LoopInduction

open Toml (Value Statement)

namespace Config

/-- The name of the table. -/
def tableName : String := "k_induction"

/-- How the table has been written so far. -/
inductive Form
  | absent
  | byKeys
  | heading
  | whole
  deriving DecidableEq

/-- The settings read so far. -/
structure Draft where
  duplicateBody : Option Bool := none
  forwardCondition : Option Bool := none
  convertAsserts : Option Bool := none
  form : Form := .absent

namespace Draft

/-- Sets what has not been set before. -/
def set (d : Draft) (key : String) (b : Bool) : Option Draft :=
  match key with
  | "duplicate_loop_body" =>
    if d.duplicateBody.isNone then some { d with duplicateBody := b } else none
  | "forward_condition" =>
    if d.forwardCondition.isNone then some { d with forwardCondition := b } else none
  | "convert_asserts" =>
    if d.convertAsserts.isNone then some { d with convertAsserts := b } else none
  | _ => none

/-- The draft of a table that is written in one form only. -/
def start (d : Draft) (form : Form) : Option Draft :=
  if d.form = .absent then some { d with form := form } else none

/-- The setting at a position of an array; a fault where something else stands there. -/
def itemAt? (items : List Value) (position : Nat) : Option (Option Bool) :=
  match items[position]? with
  | none => some none
  | some (.bool b) => some (some b)
  | some _ => none

/-- Sets what a member of a table says. -/
def setMember (d : Draft) : List String × Value → Option Draft
  | ([key], .bool b) => d.set key b
  | _ => none

/-- Sets what a value holds. -/
def setAll (d : Draft) : Value → Option Draft
  | .bool _ | .plain => none
  | .array items => do
    return { d with
      duplicateBody := ← itemAt? items 0
      forwardCondition := ← itemAt? items 1
      convertAsserts := ← itemAt? items 2 }
  | .table members => members.foldlM setMember d

/-- Takes one statement. Behind the heading all keys are settings. -/
def apply (d : Draft) (s : Statement) : Option Draft :=
  match s, d.form with
  | .heading [name], _ => if name = tableName then d.start .heading else none
  | .assign [key] (.bool b), .heading => d.set key b
  | .assign [name, key] (.bool b), .absent | .assign [name, key] (.bool b), .byKeys =>
    if name = tableName then { d with form := .byKeys }.set key b else none
  | .assign [name] value, .absent =>
    if name = tableName then do (← d.start .whole).setAll value else none
  | _, _ => none

/-- The settings, with the defaults for what is not set. -/
def toConfig (d : Draft) : Config :=
  let default : Config := {}
  { duplicateBody := d.duplicateBody.getD default.duplicateBody
    forwardCondition := d.forwardCondition.getD default.forwardCondition
    convertAsserts := d.convertAsserts.getD default.convertAsserts }

end Draft

/-- Reads the settings. -/
def ofText (text : String) : Except ReadFault Config :=
  match (Toml.statements? text).bind fun ss ↦ ss.foldlM Draft.apply {} with
  | some d => .ok d.toConfig
  | none => .error .noConfig

end Config

end LoopInduction
