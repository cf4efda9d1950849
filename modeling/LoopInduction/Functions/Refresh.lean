import LoopInduction.Functions.Basic

/-!
# Refreshing numbers and calls

`Functions.refresh` numbers all instructions from 0 on, function after function in the order of
their names and each body in program order, numbers the instructions that are jumped to from 1 on
within each function, and collects the names that each function calls.
-/

namespace LoopInduction

namespace Program

/-- Gives numbers to some instructions in their order, the next location number being `location` and
`labels` instructions with a label having gone before. -/
def numbersFrom (isTarget : InstrId → Bool) (location labels : Nat) :
    List InstrId → List (InstrId × UInt32 × Option UInt32)
  | [] => []
  | id :: ids =>
    if isTarget id then
      (id, .ofNat location, some (.ofNat (labels + 1)))
        :: numbersFrom isTarget (location + 1) (labels + 1) ids
    else (id, .ofNat location, none) :: numbersFrom isTarget (location + 1) labels ids

variable (p : Program)

/-- Whether some instruction has the id among its targets. -/
def isTarget (id : InstrId) : Bool :=
  p.entries.any (id ∈ ·.2.targets)

/-- The program with its numbers, the first location number being `location`. -/
def numbered (location : Nat) : Program :=
  let numbers := numbersFrom p.isTarget location 0 p.order
  p.map fun id i ↦ match numbers.lookup id with
    | none => i
    | some (l, t) => { i with locationNumber := l, targetNumber := t }

/-- The name of the function that an instruction calls. -/
def callee? (i : Instruction) : Option String :=
  match i.code with
  | .call _ function _ => some function
  | _ => none

/-- The names of the functions that a body calls. -/
def callees : NameMap Unit :=
  .ofList (p.entries.filterMap fun e ↦ (callee? e.2).map (·, ()))

end Program

namespace Functions

/-- Numbers a function; the state is the next location number. -/
def numberFunction (location : Nat) (_ : String) (f : Function) : Nat × Function :=
  (location + f.body.size, { f with body := f.body.numbered location })

/-- Works out all numbers and calls anew. -/
def refresh (fs : Functions) : Functions where
  byName := (fs.byName.mapAccum numberFunction 0).2
  calls := fs.byName.map fun _ f ↦ f.body.callees
  revision := fs.revision + 1

end Functions

end LoopInduction
