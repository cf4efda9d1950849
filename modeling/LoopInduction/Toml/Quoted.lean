/-!
# Quoted text

The text between quotation marks of a settings document. Between double marks a backslash begins an
escape, between single ones nothing does.

* `scanQuoted` and `scanLiteral` read a text that ends on its line. Such a text can be a key.
* `skipLines` passes over a text between marks of three, which may run over several lines. Such a
  text is never a key, so nothing but its end matters.
-/

namespace LoopInduction.Toml

/-- Whether a character only separates tokens. -/
def isBlank (c : Char) : Bool :=
  c = ' ' || c = '\t'

/-- Whether a character can stand in a comment or between quotation marks. -/
def isPrintable (c : Char) : Bool :=
  c = '\t' || (32 ≤ c.toNat && c.toNat != 127)

/-- Whether a text begins with the end of a line. -/
def atLineEnd : List Char → Bool
  | '\n' :: _ | '\r' :: '\n' :: _ => true
  | _ => false

/-- The value of a hexadecimal digit. -/
def hexValue? (c : Char) : Option Nat :=
  if c.isDigit then some (c.toNat - 48)
  else if 'a' ≤ c ∧ c ≤ 'f' then some (c.toNat - 87)
  else if 'A' ≤ c ∧ c ≤ 'F' then some (c.toNat - 55)
  else none

/-- The character with the code point that hexadecimal digits name. -/
def codePoint? (digits : List Char) : Option Char := do
  let ds ← digits.mapM hexValue?
  let n := ds.foldl (· * 16 + ·) 0
  if n.isValidChar then some (Char.ofNat n) else none

/-- The character that a one-letter escape stands for. -/
def unescape? : Char → Option Char
  | 'b' => some '\x08'
  | 't' => some '\t'
  | 'n' => some '\n'
  | 'f' => some '\x0c'
  | 'r' => some '\r'
  | 'e' => some '\x1b'
  | '"' => some '"'
  | '\\' => some '\\'
  | _ => none

/-- The number of hexadecimal digits of an escape by code point. -/
def escapeDigits? : Char → Option Nat
  | 'x' => some 2
  | 'u' => some 4
  | 'U' => some 8
  | _ => none

/-- The escape in front, behind its backslash: the number of its characters and what it stands
for. -/
def escape? : List Char → Option (Nat × Char)
  | [] => none
  | e :: cs => match escapeDigits? e with
    | some n =>
      if (cs.take n).length = n then (codePoint? (cs.take n)).map (n + 1, ·) else none
    | none => (unescape? e).map (1, ·)

/-- Reads up to the closing quotation mark of a text with escapes; also gives what follows it. -/
def scanQuoted : List Char → Option (List Char × List Char)
  | [] => none
  | c :: cs =>
    if c = '"' then some ([], cs)
    else if c = '\\' then
      match escape? cs with
      | none => none
      | some (n, x) => (scanQuoted (cs.drop n)).map fun r ↦ (x :: r.1, r.2)
    else if isPrintable c then (scanQuoted cs).map fun r ↦ (c :: r.1, r.2)
    else none
termination_by cs => cs.length
decreasing_by all_goals simp only [List.length_drop, List.length_cons]; omega

/-- Reads up to the closing quotation mark of a text without escapes; also gives what follows it. -/
def scanLiteral (cs : List Char) : Option (List Char × List Char) :=
  match cs.dropWhile fun c ↦ c ≠ '\'' && isPrintable c with
  | '\'' :: rest => some (cs.takeWhile fun c ↦ c ≠ '\'' && isPrintable c, rest)
  | _ => none

/-- The number of characters that a backslash between marks of three takes with it: those of an
escape, or the blanks between it and the end of its line. -/
def escapeLength? (cs : List Char) : Option Nat :=
  match escape? cs with
  | some (n, _) => some n
  | none =>
    if atLineEnd (cs.dropWhile isBlank) then some (cs.takeWhile isBlank).length else none

/-- What follows a text over several lines, its opening marks being passed. Up to two marks in front
of the three closing ones belong to the text. -/
def skipLines (mark : Char) (escapes : Bool) : List Char → Option (List Char)
  | [] => none
  | c :: cs =>
    if c = mark ∧ cs.take 2 = [mark, mark] then
      some (cs.drop (2 + min 2 ((cs.drop 2).takeWhile (· = mark)).length))
    else if c = '\\' ∧ escapes then
      match escapeLength? cs with
      | none => none
      | some n => skipLines mark escapes (cs.drop n)
    else if isPrintable c ∨ atLineEnd (c :: cs) then skipLines mark escapes cs
    else none
termination_by cs => cs.length
decreasing_by all_goals simp only [List.length_drop, List.length_cons]; omega

theorem length_dropWhile_le (f : Char → Bool) (cs : List Char) :
    (cs.dropWhile f).length ≤ cs.length :=
  (List.dropWhile_sublist f).length_le

theorem length_of_scanQuoted {cs text rest : List Char} (h : scanQuoted cs = some (text, rest)) :
    rest.length ≤ cs.length := by
  fun_induction scanQuoted cs generalizing text with
  | case1 => simp at h
  | case2 cs =>
    simp only [Option.some.injEq, Prod.mk.injEq] at h
    rw [← h.2, List.length_cons]; omega
  | case3 => simp at h
  | case4 cs _ n x _ ih =>
    obtain ⟨⟨t, r⟩, hs, h⟩ := Option.map_eq_some_iff.1 h
    simp only [Prod.mk.injEq] at h
    obtain ⟨-, rfl⟩ := h
    have := ih hs
    simp only [List.length_drop, List.length_cons] at this ⊢
    omega
  | case5 c cs _ _ _ ih =>
    obtain ⟨⟨t, r⟩, hs, h⟩ := Option.map_eq_some_iff.1 h
    simp only [Prod.mk.injEq] at h
    obtain ⟨-, rfl⟩ := h
    have := ih hs
    rw [List.length_cons]; omega
  | case6 => simp at h

theorem length_of_scanLiteral {cs text rest : List Char} (h : scanLiteral cs = some (text, rest)) :
    rest.length ≤ cs.length := by
  unfold scanLiteral at h
  split at h
  · next r hr =>
    simp only [Option.some.injEq, Prod.mk.injEq] at h
    have := length_dropWhile_le (fun c ↦ c ≠ '\'' && isPrintable c) cs
    rw [hr, List.length_cons] at this
    rw [← h.2]; omega
  · simp at h

theorem length_of_skipLines {mark : Char} {escapes : Bool} {cs rest : List Char}
    (h : skipLines mark escapes cs = some rest) : rest.length ≤ cs.length := by
  fun_induction skipLines mark escapes cs with
  | case1 => simp at h
  | case2 c cs =>
    simp only [Option.some.injEq] at h
    rw [← h, List.length_drop, List.length_cons]; omega
  | case3 => simp at h
  | case4 c cs _ _ n _ ih =>
    have := ih h
    simp only [List.length_drop, List.length_cons] at this ⊢
    omega
  | case5 c cs _ _ _ ih =>
    have := ih h
    rw [List.length_cons]; omega
  | case6 => simp at h

end LoopInduction.Toml
