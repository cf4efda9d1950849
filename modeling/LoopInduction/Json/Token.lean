import LoopInduction.Json.Number
import LoopInduction.Json.Quoted

/-!
# Tokens

A JSON text is a sequence of tokens with blanks between them. `Token.scan` never fails: where the
text does not go on with a token the sequence ends with `Token.stray`.
-/

namespace LoopInduction.Json

/-- A token of a JSON text. -/
inductive Token
  | openArray
  | closeArray
  | openObject
  | closeObject
  | comma
  | colon
  /-- A number or one of the three literals. -/
  | scalar (v : Value)
  /-- A text between quotation marks, `none` where it holds half of a surrogate pair. -/
  | string (s : Option String)
  /-- What does not begin any token. -/
  | stray

namespace Token

/-- Whether a character only separates tokens. -/
def isBlank (c : Char) : Bool :=
  c = ' ' || c = '\n' || c = '\t' || c = '\r'

/-- The punctuation that a character is. -/
def punctuation? : Char → Option Token
  | '[' => some .openArray
  | ']' => some .closeArray
  | '{' => some .openObject
  | '}' => some .closeObject
  | ',' => some .comma
  | ':' => some .colon
  | _ => none

/-- The literal in front, and what follows it. -/
def scanLiteral : List Char → Option (Value × List Char)
  | 'n' :: 'u' :: 'l' :: 'l' :: rest => some (.null, rest)
  | 't' :: 'r' :: 'u' :: 'e' :: rest => some (.bool true, rest)
  | 'f' :: 'a' :: 'l' :: 's' :: 'e' :: rest => some (.bool false, rest)
  | _ => none

/-- The token in front of a text that does not begin with a blank, and what follows it. -/
def scanOne (c : Char) (cs : List Char) : Option (Token × List Char) :=
  match punctuation? c with
  | some t => some (t, cs)
  | none =>
    if c = '"' then (Piece.scan cs).map fun r ↦ (.string ((Piece.join? r.1).map String.ofList), r.2)
    else if c = '-' ∨ c.isDigit then (scanNumber (c :: cs)).map fun r ↦ (.scalar r.1, r.2)
    else (scanLiteral (c :: cs)).map fun r ↦ (.scalar r.1, r.2)

theorem length_of_scanLiteral {cs rest : List Char} {v : Value}
    (h : scanLiteral cs = some (v, rest)) : rest.length < cs.length := by
  unfold scanLiteral at h
  split at h
  all_goals simp only [Option.some.injEq, Prod.mk.injEq, reduceCtorEq] at h
  all_goals rw [← h.2]; simp only [List.length_cons]; omega

theorem length_of_scanOne {c : Char} {cs rest : List Char} {t : Token}
    (h : scanOne c cs = some (t, rest)) : rest.length ≤ cs.length := by
  unfold scanOne at h
  split at h
  · simp only [Option.some.injEq, Prod.mk.injEq] at h
    exact h.2 ▸ Nat.le_refl _
  · split at h
    · obtain ⟨⟨ps, r⟩, hs, h⟩ := Option.map_eq_some_iff.1 h
      have := Piece.length_of_scan hs
      simp only [Prod.mk.injEq] at h
      rw [← h.2]; omega
    · split at h
      · obtain ⟨⟨v, r⟩, hs, h⟩ := Option.map_eq_some_iff.1 h
        have := length_of_scanNumber hs
        simp only [Prod.mk.injEq, List.length_cons] at h this
        rw [← h.2]; omega
      · obtain ⟨⟨v, r⟩, hs, h⟩ := Option.map_eq_some_iff.1 h
        have := length_of_scanLiteral hs
        simp only [Prod.mk.injEq, List.length_cons] at h this
        rw [← h.2]; omega

/-- The tokens of a text. -/
def scan : List Char → List Token
  | [] => []
  | c :: cs =>
    if isBlank c then scan cs
    else match h : scanOne c cs with
      | none => [.stray]
      | some (t, rest) =>
        have := length_of_scanOne h
        t :: scan rest
termination_by cs => cs.length

end Token

end LoopInduction.Json
