import LoopInduction.Fault

/-!
# Failures

A `Failure` is what is reported when a run, a settings file or a program text cannot be used: a
kind, a message, a place if one is known, and details about where in the work it arose.
`Fault.report` makes one of a structural fault.
-/

namespace LoopInduction

/-- What kind of thing went wrong. -/
inductive FailureKind
  /-- The program is inconsistent and must not be verified. -/
  | invariantViolation
  | config
  | file
  | serialization
  deriving DecidableEq, Inhabited

/-- The heading of a kind. -/
def FailureKind.label : FailureKind → String
  | .invariantViolation => "Structural Invariant Violation"
  | .config => "Malformed Config"
  | .file => "File Error"
  | .serialization => "Program Serialization Error"

/-- What a detail is about. -/
inductive DetailKey
  | stage
  | function
  | loopHead
  | loopExit
  | instruction
  | target
  | suggestion
  deriving DecidableEq, Inhabited

namespace DetailKey

/-- The keys in the order in which details are shown. -/
def all : List DetailKey :=
  [stage, function, loopHead, loopExit, instruction, target, suggestion]

/-- A key as it is shown. -/
def name : DetailKey → String
  | stage => "CompilationStage"
  | function => "FunctionName"
  | loopHead => "LoopHead"
  | loopExit => "LoopExit"
  | instruction => "Instruction"
  | target => "Target"
  | suggestion => "PrimarySuggestion"

end DetailKey

/-- The details of a failure, at most one of each key. -/
structure Details where
  stage : Option String := none
  function : Option String := none
  loopHead : Option String := none
  loopExit : Option String := none
  instruction : Option String := none
  target : Option String := none
  suggestion : Option String := none
  deriving DecidableEq, Inhabited

namespace Details

/-- The detail of a key. -/
def get? (d : Details) : DetailKey → Option String
  | .stage => d.stage
  | .function => d.function
  | .loopHead => d.loopHead
  | .loopExit => d.loopExit
  | .instruction => d.instruction
  | .target => d.target
  | .suggestion => d.suggestion

/-- Sets the detail of a key; one that was there before is replaced. -/
def set (d : Details) (key : DetailKey) (value : String) : Details :=
  match key with
  | .stage => { d with stage := value }
  | .function => { d with function := value }
  | .loopHead => { d with loopHead := value }
  | .loopExit => { d with loopExit := value }
  | .instruction => { d with instruction := value }
  | .target => { d with target := value }
  | .suggestion => { d with suggestion := value }

theorem get?_set (d : Details) (key key' : DetailKey) (value : String) :
    (d.set key value).get? key' = if key' = key then some value else d.get? key' := by
  cases key <;> cases key' <;> rfl

/-- The details that there are, in the order of the keys. -/
def toList (d : Details) : List (DetailKey × String) :=
  DetailKey.all.filterMap fun key ↦ (d.get? key).map (key, ·)

end Details

/-- What is reported when something cannot be used. -/
structure Failure where
  kind : FailureKind
  message : String
  location : Location := {}
  details : Details := {}
  deriving DecidableEq, Inhabited

namespace Failure

/-- A failure in one line. -/
def text (f : Failure) : String :=
  f.kind.label ++ ": " ++ f.message
    ++ (if f.location.isUnknown then "" else " (" ++ f.location.text ++ ")")

/-- A file that cannot be read; its path takes the place of a source file. -/
def file (path message : String) : Failure where
  kind := .file
  message := message
  location := { file := path }

end Failure

namespace Fault

/-- What helps against a loop that is never left through its condition. -/
def suggestion : String :=
  "Turn off forward_condition in the [k_induction] config "
    ++ "for loops that are only left through a break"

/-- The ids that a fault is about. -/
def details : Fault → Details
  | notInProgram id => { instruction := id.text }
  | doesNotFollow last first => { loopHead := first.text, loopExit := last.text }
  | danglingJump id target _ function =>
    { instruction := id.text, target := target.text,
      function := if function = "" then none else some function }
  | listedTwice _ | targetNotListed _ _ => {}
  | scaffoldMissesHead _ _ head | scaffoldRunsOff _ head => { loopHead := head.text }
  | exitIsNoJump exit _ head | assumptionNotAfterExit _ exit head
  | emptyBody head exit | exitIsLast head exit =>
    { loopHead := head.text, loopExit := exit.text }
  | conditionStaysInside branch _ head exit =>
    { loopHead := head.text, loopExit := exit.text, instruction := branch.text,
      suggestion := suggestion }
  | exitTargetLost branch target head | targetHasNoCopy branch target head =>
    { loopHead := head.text, instruction := branch.text, target := target.text }
  | targetNotInProgram id target => { instruction := id.text, target := target.text }

/-- The place that a fault knows of. -/
def location : Fault → Location
  | danglingJump _ _ location _ => location
  | _ => {}

/-- The report of a fault. -/
def report (f : Fault) : Failure where
  kind := .invariantViolation
  message := f.message
  location := f.location
  details := f.details

end Fault

end LoopInduction
