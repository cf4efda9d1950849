import LoopInduction.Diagnostics.Failure
import LoopInduction.Diagnostics.Warning
import LoopInduction.Loop.Unwinding

/-!
# What became of the loops

Every loop that is dealt with has a `Verdict`: it was converted, or it was skipped with a warning. A
`Report` sums the verdicts up. A `LoopFault` is a fault with the loop at which it arose.
-/

namespace LoopInduction

/-- What became of a loop. -/
structure LoopSummary where
  function : String
  head : InstrId
  exit : InstrId
  /-- The jump that the condition was taken from. -/
  branch : Option InstrId := none
  /-- Where the iterations end, if the body was copied. -/
  points : Option IterationPoints := none
  /-- The assumption through which the loop is left, if one was written. -/
  assumption : Option InstrId := none
  deriving DecidableEq

/-- How dealing with a loop came out. -/
inductive Verdict
  | converted (s : LoopSummary)
  | skipped (s : LoopSummary) (w : Warning)
  deriving DecidableEq

namespace Verdict

/-- The summary of a converted loop. -/
def converted? : Verdict → Option LoopSummary
  | converted s => some s
  | skipped _ _ => none

/-- The summary of a skipped loop. -/
def skipped? : Verdict → Option LoopSummary
  | converted _ => none
  | skipped s _ => some s

/-- The warning about a skipped loop. -/
def warning? : Verdict → Option Warning
  | converted _ => none
  | skipped _ w => some w

section

variable (s : LoopSummary) (w : Warning)

@[simp] theorem converted?_converted : (converted s).converted? = some s := rfl

@[simp] theorem converted?_skipped : (skipped s w).converted? = none := rfl

@[simp] theorem skipped?_converted : (converted s).skipped? = none := rfl

@[simp] theorem skipped?_skipped : (skipped s w).skipped? = some s := rfl

@[simp] theorem warning?_converted : (converted s).warning? = none := rfl

@[simp] theorem warning?_skipped : (skipped s w).warning? = some w := rfl

end

theorem converted?_eq_some_iff {v : Verdict} {s : LoopSummary} :
    v.converted? = some s ↔ v = .converted s := by
  cases v <;> simp

/-- A verdict gives the summary of a converted loop and no warning, or the summary of a skipped loop
and the warning about it. -/
theorem converted_or_skipped (v : Verdict) :
    (∃ s, v = .converted s ∧ v.converted? = some s ∧ v.skipped? = none ∧ v.warning? = none) ∨
      ∃ s w, v = .skipped s w ∧
        v.converted? = none ∧ v.skipped? = some s ∧ v.warning? = some w := by
  cases v with
  | converted s => exact .inl ⟨s, by simp⟩
  | skipped s w => exact .inr ⟨s, w, by simp⟩

end Verdict

/-- What became of all loops, in the order in which they were dealt with. -/
structure Report where
  converted : List LoopSummary := []
  skipped : List LoopSummary := []
  deriving DecidableEq

namespace Report

/-- The number of loops. -/
def size (r : Report) : Nat :=
  r.converted.length + r.skipped.length

/-- Adds the loops of one function. -/
def absorb (r : Report) (vs : List Verdict) : Report where
  converted := r.converted ++ vs.filterMap Verdict.converted?
  skipped := r.skipped ++ vs.filterMap Verdict.skipped?

end Report

/-- A fault with the loop at which it arose. -/
structure LoopFault where
  fault : Fault
  function : String
  head : InstrId
  exit : InstrId
  deriving DecidableEq

/-- The report of a fault at a loop. The loop takes the place of what the fault itself knows. -/
def LoopFault.report (f : LoopFault) : Failure :=
  let r := f.fault.report
  { r with
    details := { r.details with
      stage := "k-induction"
      function := f.function
      loopHead := f.head.text
      loopExit := f.exit.text } }

end LoopInduction
