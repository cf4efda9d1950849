import LoopInduction.Program.Listing
import LoopInduction.Program.Text

/-!
# Programs as linked slots

An `Arena` stores a program without a list of its order: every slot names the slots before and
behind it, and the arena names the two ends. A slot that was taken out is dead. It keeps its number
and loses everything else.

* `Arena.get?`, `Arena.next?`, `Arena.prev?` and `Arena.contains` look at one slot.
* `Arena.ids` goes along the links from the first slot, as long as there is a next one.
* `Arena.range` goes along the links from one slot until it meets another.
* `Arena.skips` are the skips that a predicate accepts, `Arena.survivor?` is what comes behind one.
* `Arena.text` and `Arena.textBetween` list what is met on the way along the links.
* `Arena.linked` and `Arena.unlinked` put a slot between two others and take one out;
  `Arena.Change` are the changes made of them.
-/

namespace LoopInduction

/-- A numbered place for an instruction, with the places before and behind it. -/
structure Arena.Slot where
  instruction : Instruction
  prev? : Option InstrId
  next? : Option InstrId
  live : Bool
  deriving DecidableEq

/-- The instructions of one function, linked in their order. -/
structure Arena where
  slots : Array Arena.Slot
  first? : Option InstrId
  last? : Option InstrId
  /-- The number of live slots. -/
  size : Nat
  deriving DecidableEq

namespace Arena

/-- The arena without slots. -/
def empty : Arena := ⟨#[], none, none, 0⟩

variable (a : Arena)

/-! ### Looking at an arena -/

/-- The slot with an id, unless it is dead. -/
def liveSlot? (id : InstrId) : Option Slot :=
  a.slots[id.index]?.filter (·.live)

/-- Whether there is a live slot with this id. -/
def contains (id : InstrId) : Bool :=
  (a.liveSlot? id).isSome

/-- The instruction with an id. -/
def get? (id : InstrId) : Option Instruction :=
  (a.liveSlot? id).map (·.instruction)

/-- The content of a slot; a dead one is as good as a skip. -/
def fetch (id : InstrId) : Instruction :=
  (a.get? id).getD .skip

/-- The id behind one. -/
def next? (id : InstrId) : Option InstrId :=
  (a.liveSlot? id).bind (·.next?)

/-- The id before one. -/
def prev? (id : InstrId) : Option InstrId :=
  (a.liveSlot? id).bind (·.prev?)

/-- Whether there is no live slot. -/
def isEmpty : Bool :=
  a.size == 0

/-- The ids on the way along the links from a cursor, of which there are `limit` at most. -/
def walk : (limit : Nat) → (cursor : Option InstrId) → List InstrId
  | limit + 1, some id => id :: walk limit (a.next? id)
  | 0, _ | _, none => []

/-- The ids on the way from the first slot. No way is longer than there are slots, if it ends. -/
def ids : List InstrId :=
  a.walk a.slots.size a.first?

/-- The ids on the way from a cursor up to, and without, `last`, behind those met before. There is
no outcome yet if `limit` ids on the way are not enough. -/
def upTo (first last : InstrId) :
    (limit : Nat) → (met : List InstrId) → (cursor : Option InstrId) →
      Option (Except Fault (List InstrId))
  | limit + 1, met, some id =>
    if id = last then some (.ok met) else upTo first last limit (met ++ [id]) (a.next? id)
  | 0, _, some _ => none
  | _, _, none => some (.error (.doesNotFollow last first))

/-- The ids on the way from `first` up to, and without, `last`. -/
def range (limit : Nat) (first last : InstrId) : Option (Except Fault (List InstrId)) :=
  if !a.contains first then some (.error (.notInProgram first))
  else if !a.contains last then some (.error (.notInProgram last))
  else a.upTo first last limit [] (some first)

/-- The instructions with their ids, on the way from the first slot. -/
def entries : Listing :=
  a.ids.map fun id ↦ (id, a.fetch id)

/-- The instructions that have `target` among their targets, in order. -/
def jumpSources (target : InstrId) : List InstrId :=
  (a.entries.filter (target ∈ ·.2.targets)).map Prod.fst

/-- The id that the next new slot gets. -/
def fresh : InstrId :=
  ⟨a.slots.size⟩

/-- The skips that a predicate accepts, in order. -/
def skips (accept : InstrId → Instruction → Bool) : List InstrId :=
  (a.entries.filter fun e ↦ e.2.isSkip && accept e.1 e.2).map Prod.fst

/-- The first id on the way behind one that is not among some others. -/
def survivor? (others : List InstrId) (id : InstrId) : Option InstrId :=
  (a.walk a.slots.size (a.next? id)).find? (· ∉ others)

/-! ### Listing an arena -/

/-- The ids that some instruction has among its targets, in order. -/
def labelled : List InstrId :=
  a.ids.filter fun id ↦ a.entries.any (id ∈ ·.2.targets)

/-- The listing of some slots; of a dead one there is nothing to list. -/
def textOf (ids : List InstrId) : String :=
  let labelled := a.labelled
  String.join (ids.map fun id ↦
    ((a.get? id).map (·.text (Program.labelAmong? labelled) id)).getD "")

/-- The listing of the arena. -/
def text : String :=
  a.textOf a.ids

/-- The listing on the way from `first` up to, and without, `last`; to the end if `last` is not on
the way. -/
def textBetween (first : InstrId) (last : Option InstrId) : String :=
  a.textOf ((a.walk a.slots.size (some first)).takeWhile (some · ≠ last))

/-! ### Links -/

/-- Changes a slot. -/
def alter (id : InstrId) (f : Slot → Slot) : Arena :=
  { a with slots := a.slots.modify id.index f }

/-- Makes `next?` what comes behind `prev?`, or the first slot if nothing is before it. -/
def setNext (prev? next? : Option InstrId) : Arena :=
  match prev? with
  | some id => a.alter id ({ · with next? := next? })
  | none => { a with first? := next? }

/-- Makes `prev?` what comes before `next?`, or the last slot if nothing is behind it. -/
def setPrev (next? prev? : Option InstrId) : Arena :=
  match next? with
  | some id => a.alter id ({ · with prev? := prev? })
  | none => { a with last? := prev? }

/-- Takes a new slot and leaves the links to it to be made. -/
def allocate (i : Instruction) (prev? next? : Option InstrId) : Arena :=
  { a with slots := a.slots.push ⟨i, prev?, next?, true⟩, size := a.size + 1 }

/-- Puts a new slot between two neighbours. -/
def linked (prev? next? : Option InstrId) (i : Instruction) : Arena :=
  ((a.allocate i prev? next?).setNext prev? (some a.fresh)).setPrev next? (some a.fresh)

/-- Takes a slot out and links its neighbours to each other. -/
def unlinked (id : InstrId) : Arena :=
  let bridged := (a.setNext (a.prev? id) (a.next? id)).setPrev (a.next? id) (a.prev? id)
  { bridged.alter id (fun _ ↦ ⟨.skip, none, none, false⟩) with size := a.size - 1 }

/-- Redirects the jump of one instruction and counts it if it had the old target. -/
def redirectOne (old new : InstrId) (r : Arena × Nat) (id : InstrId) : Arena × Nat :=
  (r.1.alter id fun s ↦ { s with instruction := s.instruction.redirect old new },
    if old ∈ (r.1.fetch id).targets then r.2 + 1 else r.2)

/-! ### Changes -/

/-- A change of an arena that gives an `α` or stops with a fault. -/
abbrev Change := EStateM Fault Arena

namespace Change

/-- Stops unless there is a live slot with this id. -/
def requireLive (id : InstrId) : Change Unit := fun a ↦
  if a.contains id then .ok () a else .error (.notInProgram id) a

/-- Puts a new slot between two neighbours that depend on the arena. -/
def link (prev? next? : Arena → Option InstrId) (i : Instruction) : Change InstrId := fun a ↦
  .ok a.fresh (a.linked (prev? a) (next? a) i)

/-- Inserts a new instruction at the end. -/
def push (i : Instruction) : Change InstrId :=
  link (·.last?) (fun _ ↦ none) i

/-- Inserts a new instruction right before another. -/
def insertBefore (anchor : InstrId) (i : Instruction) : Change InstrId := do
  requireLive anchor
  link (·.prev? anchor) (fun _ ↦ some anchor) i

/-- Inserts a new instruction right after another. -/
def insertAfter (anchor : InstrId) (i : Instruction) : Change InstrId := do
  requireLive anchor
  link (fun _ ↦ some anchor) (·.next? anchor) i

/-- Inserts new instructions, in their order, right before another. -/
def insertAllBefore (anchor : InstrId) (is : List Instruction) : Change (List InstrId) := do
  requireLive anchor
  is.mapM (insertBefore anchor)

/-- Takes an instruction out. -/
def remove (id : InstrId) : Change Instruction := do
  requireLive id
  let i := (← get).fetch id
  modify (·.unlinked id)
  return i

/-- Changes an instruction in its place. -/
def change (id : InstrId) (f : Instruction → Instruction) : Change Unit := do
  requireLive id
  modify (·.alter id fun s ↦ { s with instruction := f s.instruction })

/-- Redirects the jumps to `old` of the instructions that `accept` selects to `new`; gives how many
instructions that are. -/
def redirectTargets (old new : InstrId) (accept : InstrId → Bool) : Change Nat := fun a ↦
  let r := ((a.jumpSources old).filter accept).foldl (redirectOne old new) (a, 0)
  .ok r.2 r.1

/-- Takes one of some candidates out and sends the jumps to it to the first instruction behind it
that is no candidate. Without such an instruction it stays. Gives how many were taken out. -/
def removeSkip (candidates : List InstrId) (id : InstrId) : Change Nat := do
  match (← get).survivor? candidates id with
  | none => return 0
  | some survivor =>
    let _ ← redirectTargets id survivor fun _ ↦ true
    let _ ← remove id
    return 1

/-- Removes the skips that a predicate accepts, one after the other; gives how many. -/
def removeSkipsWhere (accept : InstrId → Instruction → Bool) : Change Nat := do
  let candidates := (← get).skips accept
  return (← candidates.mapM (removeSkip candidates)).foldr (· + ·) 0

end Change

/-- The arena that consists of the given instructions, with the ids 0, 1, 2, … in order. -/
def ofList (is : List Instruction) : Arena :=
  is.foldl (fun a i ↦ a.linked a.last? none i) empty

end Arena

/-- The arena that a listing describes. -/
def Listing.toArena (l : Listing) : Except Fault Arena :=
  match firstRepeat? [] l.ids, l.firstUnlisted? with
  | some id, _ => .error (.listedTwice id)
  | none, some fault => .error fault
  | none, none =>
    .ok (.ofList (l.map fun e ↦ { e.2 with targets := e.2.targets.map l.renumber }))

end LoopInduction
