import LoopInduction.Conversion.Loop
import LoopInduction.Functions.Refresh

/-!
# Converting all loops

Within a function the longest loops come first, so that the copy of an enclosing loop is taken
before an inner one gets scaffolding; of loops of equal length the one discovered first comes first.

* `convertFunction` converts the loops of one function.
* `Functions.run` takes one function after the other, in the order of their names, and stops at the
  first fault. What follows stays as it was, the function of the fault keeps what was changed.
* `Functions.runConcurrently` converts every function on its own, whatever becomes of the others,
  and then goes through the results in the order of the names.

Both refresh the numbers and calls at the end of a run without fault, and only then.
-/

namespace LoopInduction

/-- Changes to the loops of one function. -/
abbrev FunctionEdit := EStateM LoopFault Program

/-- Says at which loop a fault arose. -/
def Edit.atLoop (function : String) (l : Loop) (e : Edit α) : FunctionEdit α :=
  EStateM.adaptExcept (⟨·, function, l.head, l.exit⟩) e

/-- Puts a loop of some length behind all that are longer. -/
def insertBySize (x : Nat × Loop) : List (Nat × Loop) → List (Nat × Loop)
  | [] => [x]
  | y :: ys => if y.1 ≤ x.1 then x :: y :: ys else y :: insertBySize x ys

/-- Sorts loops by decreasing length; loops of equal length keep their order. -/
def longestFirst (loops : List (Nat × Loop)) : List Loop :=
  (loops.foldr insertBySize []).map Prod.snd

/-- Converts the loops of a function. -/
def convertFunction (s : Setup) (discovery : Discovery) (function : String) :
    FunctionEdit (List Verdict) := do
  let loops := discovery function (← get)
  let measured ← loops.mapM fun l ↦ do
    let body ← Edit.atLoop function l (.ask (·.range l.head l.exit))
    return (body.length, l)
  (longestFirst measured).mapM fun l ↦ Edit.atLoop function l (.convertLoop s function l)

/-- How far a run has come. -/
structure Progress where
  /-- The report so far, or the fault that ended the run. -/
  outcome : Except LoopFault Report := .ok {}
  /-- The warnings so far. Those of the function of the fault are not among them. -/
  warnings : List Warning := []

/-- Takes in the result of one function. After a fault nothing is taken in any more. -/
def Progress.absorb (progress : Progress) (result : Except LoopFault (List Verdict)) : Progress :=
  match progress.outcome, result with
  | .error _, _ => progress
  | .ok _, .error fault => { progress with outcome := .error fault }
  | .ok report, .ok verdicts =>
    { outcome := .ok (report.absorb verdicts)
      warnings := progress.warnings ++ verdicts.filterMap Verdict.warning? }

namespace Function

/-- Converts the loops of a function that has a body. -/
def convert (s : Setup) (discovery : Discovery) (name : String) (f : Function) :
    Except LoopFault (List Verdict) × Function :=
  if f.bodyAvailable then
    match (convertFunction s discovery name).run f.body with
    | .ok verdicts body => (.ok verdicts, { f with body := body })
    | .error fault body => (.error fault, { f with body := body })
  else (.ok [], f)

end Function

/-- What a run leaves. -/
structure Run where
  functions : Functions
  progress : Progress

namespace Functions

/-- One function in its turn. -/
def convertNext (s : Setup) (discovery : Discovery) (progress : Progress) (name : String)
    (f : Function) : Progress × Function :=
  match progress.outcome with
  | .error _ => (progress, f)
  | .ok _ =>
    let r := f.convert s discovery name
    (progress.absorb r.1, r.2)

variable (fs : Functions)

/-- The functions after a run, with numbers and calls brought up to date unless it failed. -/
def afterRun (byName : NameMap Function) (progress : Progress) : Run where
  functions :=
    let fs := { fs with byName := byName }
    match progress.outcome with
    | .ok _ => fs.refresh
    | .error _ => fs
  progress := progress

/-- Converts the loops of all functions, one function after the other. -/
def run (s : Setup) (discovery : Discovery) : Run :=
  let r := fs.byName.mapAccum (convertNext s discovery) {}
  fs.afterRun r.2 r.1

/-- Converts the loops of all functions, each function on its own. -/
def runConcurrently (s : Setup) (discovery : Discovery) : Run :=
  let results := fs.byName.map (Function.convert s discovery)
  fs.afterRun (results.map fun _ r ↦ r.2)
    ((results.entries.map (·.2.1)).foldl Progress.absorb {})

end Functions

end LoopInduction
