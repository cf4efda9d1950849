import LoopInduction.Functions.Basic
import LoopInduction.Program.Json

/-!
# Whole programs as JSON

`Functions.jsonText` writes all functions with line breaks, `Functions.ofJsonText` reads them. The
numbers of the instructions are stored with them, who calls whom is not. The parts of a function and
the functions are read in the order in which they stand in the text, so the first fault is reported.
-/

namespace LoopInduction

open Json (Value Member)

namespace Function

/-- Writes a function. -/
def toJson (f : Function) : Value :=
  .record [("body", f.body.toJson), ("body_available", .bool f.bodyAvailable)]

/-- Reads a truth value. -/
def availableOfJson (v : Value) : Except ReadFault Bool :=
  ReadFault.orNoData (fun _ ↦ Value.bool?) 0 v

/-- Reads the members of a function one after the other, given what has been read before. -/
def ofMembers (depth : Nat) (body : Option Program) (available : Option Bool) :
    List Member → Except ReadFault Function
  | [] => match body, available with
    | some body, some available => .ok ⟨body, available⟩
    | _, _ => .error .noData
  | (none, _) :: _ => .error .noData
  | (some key, v) :: members =>
    if key = "body" then
      if body.isSome then .error .noData
      else do
        let p ← Program.ofJson depth v
        ofMembers depth (some p) available members
    else if key = "body_available" then
      if available.isSome then .error .noData
      else do
        let b ← availableOfJson v
        ofMembers depth body (some b) members
    else if v.intact then ofMembers depth body available members
    else .error .noData

/-- Reads a function. -/
def ofJson (depth : Nat) (v : Value) : Except ReadFault Function :=
  match depth, v with
  | d + 1, .object members => ofMembers d none none members
  | d + 1, .array (body :: rest) => do
    let p ← Program.ofJson d body
    match rest with
    | [available] => return ⟨p, ← availableOfJson available⟩
    | _ => .error .noData
  | _, _ => .error .noData

end Function

namespace Functions

/-- Writes all functions. -/
def toJson (fs : Functions) : Value :=
  .record [("functions", .record (fs.byName.entries.map fun e ↦ (e.1, e.2.toJson)))]

/-- Reads functions by name, one after the other; of equal names the last one counts. -/
def entriesOfMembers (depth : Nat) (m : NameMap Function) :
    List Member → Except ReadFault (NameMap Function)
  | [] => .ok m
  | (none, _) :: _ => .error .noData
  | (some name, v) :: members => do
    let f ← Function.ofJson depth v
    entriesOfMembers depth (m.insert name f) members

/-- Reads all functions by name. -/
def byNameOfJson (depth : Nat) (v : Value) : Except ReadFault (NameMap Function) :=
  match depth, v with
  | d + 1, .object members => entriesOfMembers d .empty members
  | _, _ => .error .noData

/-- Reads the members of a whole program one after the other, given what has been read before. -/
def ofMembers (depth : Nat) (byName : Option (NameMap Function)) :
    List Member → Except ReadFault Functions
  | [] => match byName with
    | some m => .ok { byName := m }
    | none => .error .noData
  | (none, _) :: _ => .error .noData
  | (some key, v) :: members =>
    if key = "functions" then
      if byName.isSome then .error .noData
      else do
        let m ← byNameOfJson depth v
        ofMembers depth (some m) members
    else if v.intact then ofMembers depth byName members
    else .error .noData

/-- Reads a whole program. -/
def ofJson (depth : Nat) (v : Value) : Except ReadFault Functions :=
  match depth, v with
  | d + 1, .object members => ofMembers d none members
  | d + 1, .array (functions :: rest) => do
    let m ← byNameOfJson d functions
    if rest.isEmpty then return { byName := m } else .error .noData
  | _, _ => .error .noData

/-- The text of a whole program, with line breaks. -/
def jsonText (fs : Functions) : String :=
  fs.toJson.prettyText

/-- Reads the text of a whole program. -/
def ofJsonText (text : String) : Except ReadFault Functions :=
  ReadFault.ofText ofJson text

end Functions

end LoopInduction
