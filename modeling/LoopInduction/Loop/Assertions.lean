import LoopInduction.Program.Edit

/-!
# Assertions of the first iteration

`Edit.assumeAssertions` turns the assertions of a loop body that come from the front end into
assumptions of the same condition. What was copied or written by a transformation is left alone.
-/

namespace LoopInduction

/-- Whether an instruction is an assertion of the front end. -/
def Instruction.isSourceAssertion (i : Instruction) : Bool :=
  i.isAssert && i.origin == .source

namespace Edit

/-- Turns the assertions in `[head, exit)` into assumptions. Gives how many there were. -/
def assumeAssertions (head exit : InstrId) : Edit Nat := do
  let body ← ask (·.range head exit)
  always fun p ↦
    let assertions := body.filter fun id ↦ (p.fetch id).isSourceAssertion
    (p.map fun id i ↦ if id ∈ assertions then { i with kind := .assume } else i, assertions.length)

end Edit

end LoopInduction
