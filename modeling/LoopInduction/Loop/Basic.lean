import LoopInduction.Program.Text

/-!
# Natural loops

A loop of a program as discovery finds it: a head, an exit, which is the jump back to the head, and
the variables that are assigned inside. The body is the range from the head up to the exit, without
it.
-/

namespace LoopInduction

/-- A natural loop. -/
structure Loop where
  head : InstrId
  exit : InstrId
  /-- The variables that the body assigns, in the order of their discovery. -/
  vars : List Variable
  deriving DecidableEq, Inhabited

/-- Finds the loops of a function, before any of them is changed. -/
abbrev Discovery := String → Program → List Loop

/-- The listing of a loop, its exit included. -/
def Loop.text (l : Loop) (p : Program) : String :=
  l.head.text ++ " .. " ++ l.exit.text ++ "\n" ++ p.textBetween l.head (p.next? l.exit)

end LoopInduction
