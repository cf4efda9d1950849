import LoopInduction.Program.Basic

/-!
# Listings

A listing is a sequence of instructions with ids of the writer's choice, the form in which programs
are stored. Reading one gives the ids 0, 1, 2, … in order, and the targets follow them. No id may be
listed twice, and every target has to be listed.
-/

namespace LoopInduction

/-- Instructions with ids, in order. -/
abbrev Listing := List (InstrId × Instruction)

namespace Listing

/-- The first id that stands among those before it. -/
def firstRepeat? (seen : List InstrId) : List InstrId → Option InstrId
  | [] => none
  | id :: ids => if id ∈ seen then some id else firstRepeat? (id :: seen) ids

variable (l : Listing)

/-- The listed ids. -/
def ids : List InstrId :=
  l.map Prod.fst

/-- The id that a listed one gets when the listing is read: its position. -/
def renumber (id : InstrId) : InstrId :=
  ⟨l.ids.idxOf id⟩

/-- The first jump whose target is not listed. -/
def firstUnlisted? : Option Fault :=
  l.findSome? fun e ↦ (e.2.targets.find? (· ∉ l.ids)).map (.targetNotListed e.1 ·)

/-- The program that a listing describes. -/
def toProgram : Except Fault Program :=
  match firstRepeat? [] l.ids, l.firstUnlisted? with
  | some id, _ => .error (.listedTwice id)
  | none, some fault => .error fault
  | none, none =>
    .ok (.ofList (l.map fun e ↦ { e.2 with targets := e.2.targets.map l.renumber }))

end Listing

end LoopInduction
