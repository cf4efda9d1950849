import LoopInduction.Functions.NameMap
import LoopInduction.Program.Basic

/-!
# The functions of a program

`Functions` holds the functions of a whole program by name, with facts about them that
`Functions.refresh` works out: the location number of every instruction, the number of every
instruction that is jumped to, and who calls whom. After any other change these are out of date.
-/

namespace LoopInduction

/-- A function. One without an available body is known by name only. -/
structure Function where
  body : Program
  bodyAvailable : Bool
  deriving DecidableEq

instance : Inhabited Function := ⟨⟨.empty, false⟩⟩

namespace Function

/-- The function with the given body. -/
def ofBody (body : Program) : Function := ⟨body, true⟩

/-- A function that is only known by name. -/
def withoutBody : Function := ⟨.empty, false⟩

end Function

/-- All functions of a program. -/
structure Functions where
  byName : NameMap Function
  /-- The names of the functions that each function calls, as of the last refresh. -/
  calls : NameMap (NameMap Unit) := .empty
  /-- How often the numbers and calls have been refreshed. -/
  revision : Nat := 0

namespace Functions

/-- The program without functions. -/
def empty : Functions := { byName := .empty }

instance : Inhabited Functions := ⟨empty⟩

variable (fs : Functions)

/-- The function with a name. -/
def get? (name : String) : Option Function :=
  fs.byName.get? name

/-- Adds a function, or replaces the one with its name. -/
def insert (name : String) (f : Function) : Functions :=
  { fs with byName := fs.byName.insert name f }

/-- The names of the functions that a function calls, in order, as of the last refresh. -/
def callees? (name : String) : Option (List String) :=
  (fs.calls.get? name).map NameMap.names

end Functions

end LoopInduction
