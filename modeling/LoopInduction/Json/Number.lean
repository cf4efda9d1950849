import LoopInduction.Json.Double
import LoopInduction.Json.Value

/-!
# Numbers

`scanNumber` reads one JSON number from the front of a text. A number without fraction and exponent
is the integer it names, if that has 64 bits; negative zero is inexact. Of all others only the range
matters. Such a number is taken as a word of as many digits as fit, scaled by a power of ten; word,
power and product are each rounded to a double. If the product is no finite double the number is
meaningless, otherwise inexact.
-/

namespace LoopInduction.Json

/-- The number that decimal digits name. -/
def decimal (digits : List Char) : Nat :=
  digits.foldl (fun n c ↦ n * 10 + (c.toNat - 48)) 0

/-- The decimal digits in front, at least one, and what follows them. -/
def scanDigits (cs : List Char) : Option (List Char × List Char) :=
  match cs.takeWhile Char.isDigit with
  | [] => none
  | ds => some (ds, cs.dropWhile Char.isDigit)

/-- The digits in front of a fraction: no leading zero unless it is the only digit. -/
def scanWhole (cs : List Char) : Option (List Char × List Char) := do
  let (ds, rest) ← scanDigits cs
  if ds.head? = some '0' ∧ ds.length ≠ 1 then none else some (ds, rest)

/-- The digits of a fraction, if a point follows. -/
def scanFraction : List Char → Option (Option (List Char) × List Char)
  | '.' :: cs => (scanDigits cs).map fun r ↦ (some r.1, r.2)
  | cs => some (none, cs)

/-- The sign in front of an exponent: whether it is negative, and what follows. -/
def scanSign : List Char → Bool × List Char
  | '+' :: cs => (false, cs)
  | '-' :: cs => (true, cs)
  | cs => (false, cs)

/-- The exponent, if one follows. -/
def scanExponent : List Char → Option (Option Int × List Char)
  | c :: cs =>
    if c = 'e' ∨ c = 'E' then do
      let (ds, rest) ← scanDigits (scanSign cs).2
      return (some (if (scanSign cs).1 then -(decimal ds : Int) else decimal ds), rest)
    else some (none, c :: cs)
  | [] => some (none, [])

/-- Puts digits behind a word as long as it has 64 bits; also gives the digits left over. -/
def fillWord (word : Nat) : List Char → Nat × List Char
  | [] => (word, [])
  | c :: cs =>
    let next := word * 10 + (c.toNat - 48)
    if next < UInt64.size then fillWord next cs else (word, c :: cs)

/-- Whether `word · 10 ^ e` is beyond the finite doubles, all factors being rounded. A negative
exponent leads nowhere beyond, one above 308 always does. -/
def exceeds (word : Nat) (e : Int) : Bool :=
  if word = 0 ∨ e < 0 then false
  else if 308 < e then true
  else overflow ≤ nearestDouble word * nearestDouble (Nat.pow 10 e.toNat)

/-- What a number with the given parts is that is no integer of 64 bits. Digits in front of the
point that are left over count for their place, those behind it for nothing. -/
def inexactOf (whole fraction : List Char) (exponent : Int) : Value :=
  let (word, left) := fillWord 0 whole
  let (word', left') := fillWord word fraction
  let places : Int := left.length - (fraction.length - left'.length)
  .gap (if exceeds word' (exponent + places) then .meaningless else .inexact)

/-- What a number with the given parts is. -/
def numberOf (negative : Bool) (whole : List Char) (fraction : Option (List Char))
    (exponent : Option Int) : Value :=
  let n := decimal whole
  if fraction.isNone ∧ exponent.isNone ∧ negative ∧ 0 < n ∧ Int64.minValue.toInt ≤ -n then .int (-n)
  else if fraction.isNone ∧ exponent.isNone ∧ !negative ∧ n < UInt64.size then .int n
  else inexactOf whole (fraction.getD []) (exponent.getD 0)

/-- Reads the number in front; also gives what follows it. -/
def scanNumber (cs : List Char) : Option (Value × List Char) := do
  let negative := cs.head? = some '-'
  let (whole, rest) ← scanWhole (if negative then cs.tail else cs)
  let (fraction, rest) ← scanFraction rest
  let (exponent, rest) ← scanExponent rest
  return (numberOf negative whole fraction exponent, rest)

theorem length_of_scanDigits {cs ds rest : List Char} (h : scanDigits cs = some (ds, rest)) :
    rest.length < cs.length := by
  have hl := congrArg List.length (List.takeWhile_append_dropWhile (p := Char.isDigit) (l := cs))
  rw [List.length_append] at hl
  unfold scanDigits at h
  cases hd : cs.takeWhile Char.isDigit with
  | nil => simp [hd] at h
  | cons d ds' =>
    simp only [hd, Option.some.injEq, Prod.mk.injEq] at h
    rw [hd, List.length_cons] at hl
    rw [← h.2]; omega

theorem length_of_scanWhole {cs ds rest : List Char} (h : scanWhole cs = some (ds, rest)) :
    rest.length < cs.length := by
  simp only [scanWhole, Option.bind_eq_bind, Option.bind_eq_some_iff] at h
  obtain ⟨⟨ds', rest'⟩, hd, h⟩ := h
  split at h
  · simp at h
  · simp only [Option.some.injEq, Prod.mk.injEq] at h
    exact h.2 ▸ length_of_scanDigits hd

theorem length_of_scanFraction {cs rest : List Char} {f : Option (List Char)}
    (h : scanFraction cs = some (f, rest)) : rest.length ≤ cs.length := by
  unfold scanFraction at h
  split at h
  · next cs' =>
    obtain ⟨⟨ds, r⟩, hd, h⟩ := Option.map_eq_some_iff.1 h
    have := length_of_scanDigits hd
    simp only [Prod.mk.injEq] at h
    rw [← h.2, List.length_cons]; omega
  · simp only [Option.some.injEq, Prod.mk.injEq] at h
    exact h.2 ▸ Nat.le_refl _

theorem length_scanSign_le (cs : List Char) : (scanSign cs).2.length ≤ cs.length := by
  unfold scanSign
  split <;> simp

theorem length_of_scanExponent {cs rest : List Char} {e : Option Int}
    (h : scanExponent cs = some (e, rest)) : rest.length ≤ cs.length := by
  unfold scanExponent at h
  split at h
  · next c cs' =>
    split at h
    · simp only [Option.bind_eq_bind, Option.bind_eq_some_iff, Option.pure_def, Option.some.injEq,
        Prod.mk.injEq] at h
      obtain ⟨⟨ds, r⟩, hd, -, rfl⟩ := h
      have : r.length < (scanSign cs').2.length := length_of_scanDigits hd
      have := length_scanSign_le cs'
      simp only [List.length_cons]; omega
    · simp only [Option.some.injEq, Prod.mk.injEq] at h
      exact h.2 ▸ Nat.le_refl _
  · simp only [Option.some.injEq, Prod.mk.injEq] at h
    exact h.2 ▸ Nat.le_refl _

theorem length_of_scanNumber {cs rest : List Char} {v : Value}
    (h : scanNumber cs = some (v, rest)) : rest.length < cs.length := by
  simp only [scanNumber, Option.bind_eq_bind, Option.bind_eq_some_iff, Option.pure_def,
    Option.some.injEq, Prod.mk.injEq] at h
  obtain ⟨⟨w, r₁⟩, hw, ⟨f, r₂⟩, hf, ⟨e, r₃⟩, he, -, rfl⟩ := h
  have h₁ : r₁.length < _ := length_of_scanWhole hw
  have h₂ : r₂.length ≤ r₁.length := length_of_scanFraction hf
  have h₃ : r₃.length ≤ r₂.length := length_of_scanExponent he
  have : (if cs.head? = some '-' then cs.tail else cs).length ≤ cs.length := by
    split <;> simp
  show r₃.length < cs.length
  omega

end LoopInduction.Json
