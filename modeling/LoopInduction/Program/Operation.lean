import LoopInduction.Program.Arena
import LoopInduction.Program.Edit
import LoopInduction.Program.Jumps

/-!
# Operations

An `Operation` is one change of a program. It can be run on a `Program`, on an `Arena` and on a
`Ledger`, which is a plain list of instructions with their ids, and gives the same kind of `Answer`
everywhere. `Operation.history` runs one after the other and goes on after those that fail.

A `View` is all that can be asked about the instructions and their order, `Listing.view` being the
view of a list.
-/

namespace LoopInduction

/-! ### Views -/

/-- What can be asked about instructions in an order. -/
structure View where
  entries : Listing
  ids : List InstrId
  first? : Option InstrId
  last? : Option InstrId
  size : Nat
  isEmpty : Bool
  contains : InstrId → Bool
  get? : InstrId → Option Instruction
  prev? : InstrId → Option InstrId
  next? : InstrId → Option InstrId

/-- What comes right after an id in a list. -/
def successor? (ids : List InstrId) (id : InstrId) : Option InstrId :=
  (ids.dropWhile (· ≠ id)).tail.head?

/-- The answers of a list of instructions with their ids. -/
def Listing.view (l : Listing) : View where
  entries := l
  ids := l.ids
  first? := l.ids.head?
  last? := l.ids.getLast?
  size := l.length
  isEmpty := l.isEmpty
  contains id := id ∈ l.ids
  get? id := l.lookup id
  prev? := successor? l.ids.reverse
  next? := successor? l.ids

/-- The answers of a program. -/
def Program.view (p : Program) : View where
  entries := p.entries
  ids := p.order
  first? := p.first?
  last? := p.last?
  size := p.size
  isEmpty := p.isEmpty
  contains := p.contains
  get? := p.get?
  prev? := p.prev?
  next? := p.next?

/-- The answers of an arena. -/
def Arena.view (a : Arena) : View where
  entries := a.entries
  ids := a.ids
  first? := a.first?
  last? := a.last?
  size := a.size
  isEmpty := a.isEmpty
  contains := a.contains
  get? := a.get?
  prev? := a.prev?
  next? := a.next?

/-! ### Ledgers -/

/-- Instructions with their ids in order, with the number of ids that were ever given. -/
structure Ledger where
  given : Nat
  entries : Listing

namespace Ledger

/-- A change of a ledger that gives an `α` or stops with a fault. -/
abbrev Change := EStateM Fault Ledger

/-- Stops unless the id is listed. -/
def requireListed (id : InstrId) : Change Unit := fun l ↦
  if id ∈ l.entries.ids then .ok () l else .error (.notInProgram id) l

/-- Gives new ids to instructions and puts these entries where `place` says. -/
def add (is : List Instruction) (place : (new old : Listing) → Listing) :
    Change (List InstrId) := fun l ↦
  let ids := (List.range is.length).map fun k ↦ ⟨l.given + k⟩
  .ok ids ⟨l.given + is.length, place (ids.zip is) l.entries⟩

/-- Replaces every entry. -/
def mapEntries (f : InstrId × Instruction → InstrId × Instruction) : Change Unit :=
  modify fun l ↦ { l with entries := l.entries.map f }

/-- New entries right before the one with an id. -/
def putBefore (anchor : InstrId) (new old : Listing) : Listing :=
  old.flatMap fun e ↦ if e.1 = anchor then new ++ [e] else [e]

/-- New entries right after the one with an id. -/
def putAfter (anchor : InstrId) (new old : Listing) : Listing :=
  old.flatMap fun e ↦ if e.1 = anchor then e :: new else [e]

/-- New entries after all others. -/
def putLast (new old : Listing) : Listing :=
  old ++ new

end Ledger

/-! ### Operations -/

/-- A change of a program. -/
inductive Operation
  | push (i : Instruction)
  | insertBefore (anchor : InstrId) (i : Instruction)
  | insertAfter (anchor : InstrId) (i : Instruction)
  | insertAllBefore (anchor : InstrId) (is : List Instruction)
  | remove (id : InstrId)
  | redirectTargets (old new : InstrId) (accept : InstrId → Bool)
  | change (id : InstrId) (f : Instruction → Instruction)

/-- What an operation gives. -/
inductive Answer
  | ids (new : List InstrId)
  | instruction (i : Instruction)
  | count (n : Nat)
  | done
  deriving DecidableEq

/-- The new ids in an answer. -/
def Answer.newIds : Answer → List InstrId
  | ids new => new
  | _ => []

namespace Operation

/-- Runs an operation on a program. -/
def onProgram : Operation → Edit Answer
  | push i => return .ids [← Edit.push i]
  | insertBefore anchor i => return .ids [← Edit.insertBefore anchor i]
  | insertAfter anchor i => return .ids [← Edit.insertAfter anchor i]
  | insertAllBefore anchor is => return .ids (← Edit.insertAllBefore anchor is)
  | remove id => return .instruction (← Edit.remove id)
  | redirectTargets old new accept =>
    return .count (← Edit.always (·.redirectTargets old new accept))
  | change id f => do
    Edit.change id f
    return .done

/-- Runs an operation on an arena. -/
def onArena : Operation → Arena.Change Answer
  | push i => return .ids [← Arena.Change.push i]
  | insertBefore anchor i => return .ids [← Arena.Change.insertBefore anchor i]
  | insertAfter anchor i => return .ids [← Arena.Change.insertAfter anchor i]
  | insertAllBefore anchor is => return .ids (← Arena.Change.insertAllBefore anchor is)
  | remove id => return .instruction (← Arena.Change.remove id)
  | redirectTargets old new accept =>
    return .count (← Arena.Change.redirectTargets old new accept)
  | change id f => do
    Arena.Change.change id f
    return .done

/-- Runs an operation on a ledger. -/
def onLedger : Operation → Ledger.Change Answer
  | push i => return .ids (← Ledger.add [i] Ledger.putLast)
  | insertBefore anchor i => do
    Ledger.requireListed anchor
    return .ids (← Ledger.add [i] (Ledger.putBefore anchor))
  | insertAfter anchor i => do
    Ledger.requireListed anchor
    return .ids (← Ledger.add [i] (Ledger.putAfter anchor))
  | insertAllBefore anchor is => do
    Ledger.requireListed anchor
    return .ids (← Ledger.add is (Ledger.putBefore anchor))
  | remove id => do
    Ledger.requireListed id
    let i := ((← get).entries.lookup id).getD .skip
    modify fun l ↦ { l with entries := l.entries.filter (·.1 ≠ id) }
    return .instruction i
  | redirectTargets old new accept => do
    let n := (← get).entries.countP fun e ↦ old ∈ e.2.targets && accept e.1
    Ledger.mapEntries fun e ↦ if accept e.1 then (e.1, e.2.redirect old new) else e
    return .count n
  | change id f => do
    Ledger.requireListed id
    Ledger.mapEntries fun e ↦ if e.1 = id then (e.1, f e.2) else e
    return .done

variable {σ : Type}

/-- Runs one operation after the other, whether they fail or not, and gives all outcomes. -/
def history (run : Operation → EStateM Fault σ Answer) (s : σ) :
    List Operation → List (Except Fault Answer) × σ
  | [] => ([], s)
  | op :: ops => match (run op).run s with
    | .ok answer s' => (.ok answer :: (history run s' ops).1, (history run s' ops).2)
    | .error fault s' => (.error fault :: (history run s' ops).1, (history run s' ops).2)

end Operation

end LoopInduction
