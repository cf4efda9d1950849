/-!
# Values without quotation marks

What a settings document can hold as a value without quotation marks and brackets: a truth value, a
number, or a date and time of day. No setting takes any but a truth value. Of dates and times the
form is looked at and the ranges, of numbers only the outline, so that not all of them can be
converted.

* `isNumber` decides on integers in four bases and on decimals. An underscore stands between digits.
* `isMoment` decides on dates, times of day, and both together with or without an offset.
-/

namespace LoopInduction.Toml

/-! ### Numbers -/

/-- Whether a text is one or more digits, single underscores between them being allowed. -/
def isDigits (isDigit : Char → Bool) : List Char → Bool
  | [] => false
  | [c] => isDigit c
  | c :: '_' :: cs => isDigit c && isDigits isDigit cs
  | c :: cs => isDigit c && isDigits isDigit cs

/-- Whether a character is a digit in a base of at most ten. -/
def isDigitBelow (base : Nat) (c : Char) : Bool :=
  c.isDigit && c.toNat - 48 < base

/-- Whether a character is a hexadecimal digit. -/
def isHexDigit (c : Char) : Bool :=
  c.isDigit || ('a' ≤ c && c ≤ 'f') || ('A' ≤ c && c ≤ 'F')

/-- The characters in front that are decimal digits or underscores, and what follows them. -/
def spanDigits (cs : List Char) : List Char × List Char :=
  cs.span fun c ↦ c.isDigit || c = '_'

/-- Whether a text is a decimal integer without a sign. No zero stands in front of other digits. -/
def isWhole (cs : List Char) : Bool :=
  isDigits Char.isDigit cs && (cs.head? != some '0' || cs.length = 1)

/-- A text without the sign in front of it, if there is one. -/
def dropSign : List Char → List Char
  | '+' :: cs | '-' :: cs => cs
  | cs => cs

/-- Whether a text is nothing, or an exponent with its letter. -/
def isExponent : List Char → Bool
  | [] => true
  | c :: cs => (c = 'e' || c = 'E') && isDigits Char.isDigit (dropSign cs)

/-- Whether a text is nothing, or a fraction with its point, or an exponent, or both. -/
def isFraction : List Char → Bool
  | '.' :: cs => isDigits Char.isDigit (spanDigits cs).1 && isExponent (spanDigits cs).2
  | cs => isExponent cs

/-- Whether all underscores behind a character stand between hexadecimal digits. -/
def underscoresJoin (before : Char) : List Char → Bool
  | [] => before != '_'
  | c :: cs =>
    (c != '_' || isHexDigit before) && (before != '_' || isHexDigit c) && underscoresJoin c cs

/-- Whether a character can stand in a group of digits: it is no space, which would begin another
word, and none of those that make a number a decimal. -/
def isOfGroup (c : Char) : Bool :=
  !(c = ' ' || c = '.' || c = 'e' || c = 'E')

/-- Whether a text is one or more groups of digits with underscores between them. A group is known
by the digits at its ends, the last one by the digit in front. -/
def isGroups : List Char → Bool
  | [] => false
  | c :: cs => isHexDigit c && (c :: cs).all isOfGroup && underscoresJoin c cs

/-- Whether a text is a decimal integer in several groups of digits. The first digit is no zero. -/
def isGrouped (cs : List Char) : Bool :=
  match cs.takeWhile Char.isDigit, cs.dropWhile Char.isDigit with
  | d :: _, '_' :: rest => d != '0' && isGroups rest
  | _, _ => false

/-- Whether a text is a number without a sign or the mark of a base. -/
def isUnsigned (cs : List Char) : Bool :=
  cs = ['i', 'n', 'f'] || cs = ['n', 'a', 'n'] || isGrouped cs ||
    (isWhole (spanDigits cs).1 && isFraction (spanDigits cs).2)

/-- Whether a text can stand behind the mark of a base: nothing, or digits. -/
def isBased (isDigit : Char → Bool) (cs : List Char) : Bool :=
  cs.isEmpty || isDigits isDigit cs

/-- Whether a text is a number. One with the mark of a base has no sign. -/
def isNumber : List Char → Bool
  | '0' :: 'x' :: cs => isBased isHexDigit cs
  | '0' :: 'o' :: cs => isBased (isDigitBelow 8) cs
  | '0' :: 'b' :: cs => isBased (isDigitBelow 2) cs
  | cs => isUnsigned (dropSign cs)

/-! ### Dates and times -/

/-- The number that the next `n` characters name, if they are digits, and what follows them. -/
def takeNumber? (n : Nat) (cs : List Char) : Option (Nat × List Char) :=
  let ds := cs.take n
  if ds.length = n ∧ ds.all Char.isDigit then
    some (ds.foldl (fun k c ↦ k * 10 + (c.toNat - 48)) 0, cs.drop n)
  else none

/-- What follows a character, if it is in front. -/
def dropChar? (c : Char) : List Char → Option (List Char)
  | [] => none
  | d :: cs => if d = c then some cs else none

/-- The number of days in a month. -/
def daysIn (year month : Nat) : Nat :=
  if month = 2 then if year % 4 = 0 ∧ (year % 100 ≠ 0 ∨ year % 400 = 0) then 29 else 28
  else if month = 4 ∨ month = 6 ∨ month = 9 ∨ month = 11 then 30
  else 31

/-- What follows a date that is in front. -/
def dropDate? (cs : List Char) : Option (List Char) := do
  let (year, cs) ← takeNumber? 4 cs
  let (month, cs) ← takeNumber? 2 (← dropChar? '-' cs)
  let (day, cs) ← takeNumber? 2 (← dropChar? '-' cs)
  if 1 ≤ month ∧ month ≤ 12 ∧ 1 ≤ day ∧ day ≤ daysIn year month then some cs else none

/-- What follows hours and minutes that are in front. -/
def dropMinutes? (cs : List Char) : Option (List Char) := do
  let (hour, cs) ← takeNumber? 2 cs
  let (minute, cs) ← takeNumber? 2 (← dropChar? ':' cs)
  if hour < 24 ∧ minute < 60 then some cs else none

/-- What follows a fraction of a second, if one is in front. -/
def dropFraction? : List Char → Option (List Char)
  | '.' :: cs => match cs.takeWhile Char.isDigit with
    | [] => none
    | _ => some (cs.dropWhile Char.isDigit)
  | cs => some cs

/-- What follows a time of day that is in front. The seconds may be left out, and may be a leap
second. -/
def dropTime? (cs : List Char) : Option (List Char) := do
  let cs ← dropMinutes? cs
  match cs with
  | ':' :: cs =>
    let (second, cs) ← takeNumber? 2 cs
    if second ≤ 60 then dropFraction? cs else none
  | cs => some cs

/-- Whether a text is nothing, or an offset from universal time. -/
def isOffset : List Char → Bool
  | [] | ['Z'] | ['z'] => true
  | '+' :: cs | '-' :: cs => dropMinutes? cs = some []
  | _ => false

/-- Whether a text is nothing, or a time of day with an offset behind the mark that divides it from
a date. -/
def isTimeOfDate : List Char → Bool
  | [] => true
  | c :: cs => (c = 'T' || c = 't' || c = ' ') && (dropTime? cs).any isOffset

/-- Whether a text is a date, a time of day, or both. -/
def isMoment (cs : List Char) : Bool :=
  (dropDate? cs).any isTimeOfDate || dropTime? cs = some []

end LoopInduction.Toml
