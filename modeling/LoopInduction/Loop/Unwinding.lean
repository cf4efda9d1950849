import LoopInduction.Expr.Guard
import LoopInduction.Program.Edit
import LoopInduction.Program.Skips

/-!
# Unwinding a loop once

`Edit.duplicateBody` writes one copy of the body of a loop in front of its exit. Scaffolding inside
the body is not copied. Jumps of the copy to the body go to the copy, jumps that leave the body stay
as they are; a jump to something in the body that has no copy cannot be resolved. Every target is
resolved before the program is touched, so a loop that cannot be unwound stays as it was.

The skips of the copy are removed again. A marker skip behind the exit shows where the first
iteration ends; if the exit is not always taken, a jump over the marker keeps what falls through it
on its way.
-/

namespace LoopInduction

/-- Where each iteration of an unwound loop ends. -/
structure IterationPoints where
  /-- The marker behind the jump back of the first iteration. -/
  firstExit : InstrId
  /-- The last instruction of the copy; none where the copy was all skips. -/
  copyExit : Option InstrId
  deriving DecidableEq

/-- Where a jump of a copied instruction goes. -/
inductive CopiedTarget
  /-- To the copy of the instruction at a position among those that are copied. -/
  | inner (position : Nat)
  | outer (id : InstrId)

namespace CopiedTarget

/-- The target, once the copies have ids. -/
def resolve (copies : List InstrId) : CopiedTarget → InstrId
  | inner k => copies.getD k default
  | outer id => id

end CopiedTarget

namespace Program

variable (p : Program)

/-- Where a target of the instruction `id` goes in its copy. -/
def copiedTarget (head : InstrId) (body copied : List InstrId) (id target : InstrId) :
    Except Fault CopiedTarget :=
  match copied.idxOf? target with
  | some k => .ok (.inner k)
  | none =>
    if target ∈ body then .error (.targetHasNoCopy id target head)
    else if p.contains target then .ok (.outer target)
    else .error (.targetNotInProgram id target)

/-- The copies of some instructions of the body, with where their jumps go. -/
def copiesOf (head : InstrId) (body copied : List InstrId) :
    Except Fault (List (Instruction × List CopiedTarget)) :=
  copied.mapM fun id ↦ do
    let targets ← (p.fetch id).targets.mapM (p.copiedTarget head body copied id)
    return ((p.fetch id).duplicate, targets)

/-- The body of a loop that has one. -/
def bodyToCopy (head exit : InstrId) : Except Fault (List InstrId) := do
  let body ← p.range head exit
  if body.isEmpty then .error (.emptyBody head exit) else .ok body

/-- The instruction behind the exit of a loop. -/
def behindExit (head exit : InstrId) : Except Fault InstrId :=
  match p.next? exit with
  | some id => .ok id
  | none => .error (.exitIsLast head exit)

end Program

namespace Edit

/-- Gives the copies the targets that their jumps go to. -/
def retarget (copies : List InstrId) : List (InstrId × List CopiedTarget) → Edit Unit
  | [] => return ()
  | (id, targets) :: rest => do
    change id ({ · with targets := targets.map (CopiedTarget.resolve copies) })
    retarget copies rest

/-- Writes one copy of the body `[head, exit)` in front of the exit. -/
def duplicateBody (head exit : InstrId) (builder : GuardBuilder) : Edit IterationPoints := do
  let body ← ask (·.bodyToCopy head exit)
  let behind ← ask (·.behindExit head exit)
  let copied ← ask fun p ↦ .ok (body.filter fun id ↦ !(p.fetch id).isScaffold)
  let copies ← ask (·.copiesOf head body copied)
  let x ← fetch exit
  if !x.isAlwaysTaken then
    discard (insertBefore behind ((Instruction.goto behind builder.truth).scaffoldAt x))
  let marker ← insertBefore behind (Instruction.skip.scaffoldAt x)
  let ids ← insertAllBefore exit (copies.map Prod.fst)
  retarget ids (ids.zip (copies.map Prod.snd))
  modify fun p ↦ (p.removeSkipsWhere fun id _ ↦ id ∈ ids).1
  let p ← get
  return { firstExit := marker, copyExit := ids.reverse.find? (p.contains ·) }

end Edit

end LoopInduction
