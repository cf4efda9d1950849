import LoopInduction.Toml.Quoted

/-!
# Tokens of a settings document

A document in TOML is a sequence of tokens with comments between them. Line ends are tokens, because
a statement ends with its line, and so are blanks, because there is none inside a number.
`Token.scan` never fails: where the text does not go on with a token the sequence ends with
`Token.stray`.
-/

namespace LoopInduction.Toml

/-- A token of a document. -/
inductive Token
  | blank (s : String)
  | lineEnd
  | equals
  | dot
  | comma
  | openBracket
  | closeBracket
  | openBrace
  | closeBrace
  /-- What stands between blanks, marks and punctuation: a bare key, or a piece of a value. -/
  | word (s : String)
  /-- A text in quotation marks. -/
  | quoted (s : String)
  /-- A text in quotation marks of three. -/
  | lines
  /-- What does not begin any token. -/
  | stray
  deriving DecidableEq

namespace Token

/-- The punctuation that a character is. -/
def punctuation? : Char → Option Token
  | '=' => some equals
  | '.' => some dot
  | ',' => some comma
  | '[' => some openBracket
  | ']' => some closeBracket
  | '{' => some openBrace
  | '}' => some closeBrace
  | _ => none

/-- Whether a character goes on with a word. -/
def isInner (c : Char) : Bool :=
  !(isBlank c || (punctuation? c).isSome || c = '#' || c = '\n' || c = '\r')

/-- The quoted text behind a double mark, and what follows it. -/
def scanDouble (cs : List Char) : Option (Token × List Char) :=
  if cs.take 2 = ['"', '"'] then (skipLines '"' true (cs.drop 2)).map (lines, ·)
  else (scanQuoted cs).map fun r ↦ (quoted (String.ofList r.1), r.2)

/-- The quoted text behind a single mark, and what follows it. -/
def scanSingle (cs : List Char) : Option (Token × List Char) :=
  if cs.take 2 = ['\'', '\''] then (skipLines '\'' false (cs.drop 2)).map (lines, ·)
  else (scanLiteral cs).map fun r ↦ (quoted (String.ofList r.1), r.2)

/-- The token in front of a text that does not begin with a comment, and what follows. -/
def scanOne (c : Char) (cs : List Char) : Option (Token × List Char) :=
  if isBlank c then
    some (blank (String.ofList (c :: cs.takeWhile isBlank)), cs.dropWhile isBlank)
  else match punctuation? c with
  | some t => some (t, cs)
  | none =>
    if c = '\n' then some (lineEnd, cs)
    else if c = '\r' then if cs.head? = some '\n' then some (lineEnd, cs.tail) else none
    else if c = '"' then scanDouble cs
    else if c = '\'' then scanSingle cs
    else some (word (String.ofList (c :: cs.takeWhile isInner)), cs.dropWhile isInner)

theorem length_of_scanDouble {cs rest : List Char} {t : Token}
    (h : scanDouble cs = some (t, rest)) : rest.length ≤ cs.length := by
  unfold scanDouble at h
  split at h
  · obtain ⟨r, hs, h⟩ := Option.map_eq_some_iff.1 h
    have := length_of_skipLines hs
    simp only [Prod.mk.injEq, List.length_drop] at h this
    rw [← h.2]; omega
  · obtain ⟨⟨s, r⟩, hs, h⟩ := Option.map_eq_some_iff.1 h
    have := length_of_scanQuoted hs
    simp only [Prod.mk.injEq] at h
    rw [← h.2]; omega

theorem length_of_scanSingle {cs rest : List Char} {t : Token}
    (h : scanSingle cs = some (t, rest)) : rest.length ≤ cs.length := by
  unfold scanSingle at h
  split at h
  · obtain ⟨r, hs, h⟩ := Option.map_eq_some_iff.1 h
    have := length_of_skipLines hs
    simp only [Prod.mk.injEq, List.length_drop] at h this
    rw [← h.2]; omega
  · obtain ⟨⟨s, r⟩, hs, h⟩ := Option.map_eq_some_iff.1 h
    have := length_of_scanLiteral hs
    simp only [Prod.mk.injEq] at h
    rw [← h.2]; omega

theorem length_of_scanOne {c : Char} {cs rest : List Char} {t : Token}
    (h : scanOne c cs = some (t, rest)) : rest.length ≤ cs.length := by
  unfold scanOne at h
  split at h
  · simp only [Option.some.injEq, Prod.mk.injEq] at h
    exact h.2 ▸ length_dropWhile_le _ _
  · split at h
    · simp only [Option.some.injEq, Prod.mk.injEq] at h
      exact h.2 ▸ Nat.le_refl _
    · repeat' split at h
      all_goals try simp only [Option.some.injEq, Prod.mk.injEq, reduceCtorEq] at h
      · exact h.2 ▸ Nat.le_refl _
      · rw [← h.2, List.length_tail]; omega
      · exact length_of_scanDouble h
      · exact length_of_scanSingle h
      · exact h.2 ▸ length_dropWhile_le _ _

/-- The tokens of a text. A comment goes up to the end of its line. -/
def scan : List Char → List Token
  | [] => []
  | c :: cs =>
    if c = '#' then
      have := length_dropWhile_le isPrintable cs
      match (cs.dropWhile isPrintable).head? with
      | none | some '\n' | some '\r' => scan (cs.dropWhile isPrintable)
      | some _ => [stray]
    else match h : scanOne c cs with
      | none => [stray]
      | some (t, rest) =>
        have := length_of_scanOne h
        t :: scan rest
termination_by cs => cs.length

/-- The tokens of a document. A byte order mark in front is left out. -/
def ofDocument (text : String) : List Token :=
  match text.toList with
  | '\ufeff' :: cs => scan cs
  | cs => scan cs

/-- Whether a character can stand in a bare key. -/
def isBare (c : Char) : Bool :=
  c.isAlphanum || c = '_' || c = '-'

/-- The key that a token is. -/
def key? : Token → Option String
  | word s => if s.toList.all isBare then some s else none
  | quoted s => some s
  | _ => none

end Token

end LoopInduction.Toml
