import LoopInduction.Diagnostics.Failure
import LoopInduction.Diagnostics.Warning

/-!
# Diagnostics on a terminal

Failures and warnings are shown as lines of coloured parts. Every line ends by resetting the
colours.
-/

namespace LoopInduction

/-- How a part of a line looks. -/
inductive Style
  | plain
  | red
  | yellow
  | darkYellow
  | darkMagenta
  | bright
  | gray
  deriving DecidableEq

/-- The control sequence that sets a graphic mode. -/
def Style.sequence (mode : Nat) : String :=
  "\x1b[" ++ toString mode ++ "m"

/-- The control sequences in front of a part. -/
def Style.code : Style → String
  | plain => ""
  | red => sequence 31
  | yellow => sequence 33
  | darkYellow => sequence 2 ++ sequence 33
  | darkMagenta => sequence 2 ++ sequence 35
  | bright => sequence 1
  | gray => sequence 90

/-- The parts of a line. -/
abbrev Line := List (Style × String)

/-- A line as the terminal gets it. -/
def Line.text (l : Line) : String :=
  String.join (l.map fun part ↦ part.1.code ++ part.2) ++ Style.sequence 0 ++ "\n"

/-- A place, if one is known. -/
def Location.lines (l : Location) : List Line :=
  if l.isUnknown then [] else [[(.darkMagenta, "At "), (.bright, l.text)]]

/-- The heading of a failure of some kind. -/
def FailureKind.lines : FailureKind → List Line
  | .invariantViolation =>
    [[(.yellow, "LOOP TRANSFORMATION BUG - ")],
      [(.darkYellow,
        "The program was left in an unknown state and must not be verified")]]
  | .config =>
    [[(.yellow, "CONFIG FILE ISSUE - ")],
      [(.darkYellow, "Malformed config file, something doesn't make sense inside it")]]
  | .file => []
  | .serialization => [[(.yellow, "Couldn't read or write the GOTO program")]]

/-- The lines of a failure. For a file only its path and the message are shown. -/
def Failure.lines (f : Failure) : List Line :=
  match f.kind with
  | .file =>
    [[(.yellow, "Can't find/read file: "), (.plain, f.location.file)], [(.plain, f.message)]]
  | kind =>
    kind.lines ++ [[(.red, f.message)]] ++ f.location.lines
      ++ f.details.toList.map fun d ↦ [(.gray, d.1.name ++ ": "), (.plain, d.2)]

/-- The lines of a warning. -/
def Warning.lines (w : Warning) : List Line :=
  [[(.yellow, "WARNING: "), (.darkYellow, w.function)],
    [(.plain, "We couldn't find a loop condition for the following loop, "
      ++ "so we're not converting it.")]]
    ++ w.location.lines ++ [[(.gray, "Loop: ")], [(.plain, w.listing)]]

/-- Some lines as the terminal gets them. -/
def Line.textOf (lines : List Line) : String :=
  String.join (lines.map Line.text)

/-- All failures, then all warnings, as the terminal gets them. -/
def diagnosticsText (failures : List Failure) (warnings : List Warning) : String :=
  Line.textOf (failures.flatMap Failure.lines ++ warnings.flatMap Warning.lines)

end LoopInduction
