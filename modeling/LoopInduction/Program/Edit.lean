import LoopInduction.Program.Basic

/-!
# Edits

An edit changes a program step by step and may stop with a fault. A stopped edit keeps what it had
changed until then: the state of the program after a fault is part of the result.

`Edit.insertBefore`, `Edit.insertAfter`, `Edit.insertAllBefore`, `Edit.remove` and `Edit.change` act
at an instruction that the program has to have; addressed to any other id they stop at once.
-/

namespace LoopInduction

/-- A change of a program that gives an `α` or stops with a fault. -/
abbrev Edit := EStateM Fault Program

namespace Edit

/-- Asks the program, and stops where there is no answer. -/
def ask (f : Program → Except Fault α) : Edit α := fun p ↦
  match f p with
  | .ok a => .ok a p
  | .error e => .error e p

/-- Makes a change that cannot fail, and gives its result. -/
def always (f : Program → Program × α) : Edit α := fun p ↦
  .ok (f p).2 (f p).1

/-- The instruction with an id. -/
def fetch (id : InstrId) : Edit Instruction :=
  ask (·.instruction id)

/-- Inserts a new instruction at a position that depends on the program. -/
def insertAt (position : Program → Nat) (i : Instruction) : Edit InstrId :=
  always fun p ↦ (p.insertAt (position p) i, p.fresh)

/-- Inserts a new instruction at the end. -/
def push (i : Instruction) : Edit InstrId :=
  always fun p ↦ (p.push i, p.fresh)

/-- Inserts a new instruction right before another. -/
def insertBefore (anchor : InstrId) (i : Instruction) : Edit InstrId := do
  discard (fetch anchor)
  insertAt (·.order.idxOf anchor) i

/-- Inserts a new instruction right after another. -/
def insertAfter (anchor : InstrId) (i : Instruction) : Edit InstrId := do
  discard (fetch anchor)
  insertAt (·.order.idxOf anchor + 1) i

/-- Inserts new instructions, in their order, right before another. -/
def insertAllBefore (anchor : InstrId) (is : List Instruction) : Edit (List InstrId) := do
  discard (fetch anchor)
  is.mapM (insertBefore anchor)

/-- Takes an instruction out. Redirecting the jumps to it is left to the caller. -/
def remove (id : InstrId) : Edit Instruction := do
  let i ← fetch id
  modify (·.erase id)
  return i

/-- Changes an instruction in its place. -/
def change (id : InstrId) (f : Instruction → Instruction) : Edit Unit := do
  discard (fetch id)
  modify (·.update id f)

/-- Redirects the jump of one instruction; gives whether it had the old target. -/
def redirect (id old new : InstrId) : Edit Bool := do
  let i ← fetch id
  modify (·.update id (·.redirect old new))
  return decide (old ∈ i.targets)

end Edit

end LoopInduction
