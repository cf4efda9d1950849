import LoopInduction.Json.Printer
import LoopInduction.Json.Reader
import LoopInduction.Proofs.Json.Value
import Mathlib.Data.List.Nodup

/-!
# Reading back what was written

The text of a faithful value is read as that value (`Json.Value.ofText_prettyText`). The tokens of
the text are those of the value (`Json.Value.scan_pretty`), wherever it stands: blanks separate
tokens, a quoted text ends with its quotation mark, and a number ends where nothing follows that
could go on with it. The reader takes these tokens one by one and comes out with the value
(`Json.Value.foldl_step_tokens`). So the brackets in the text are nested as deep as those of the
value (`Json.Value.nesting_prettyText`).

## Main definitions

* `Json.Value.tokens` : the tokens of a value.
* `Json.Token.nesting` : the most brackets that are open at the same time in a text.

## Main results

* `Json.Value.ofText_prettyText` : what was written is read back.
-/

namespace LoopInduction.Json

/-! ### Quoted text -/

theorem hexValue?_hexDigit {n : Nat} (h : n < 16) : hexValue? (hexDigit n) = some n := by
  have hall : ∀ n < 16, hexValue? (hexDigit n) = some n := by decide
  exact hall n h

theorem codeUnit?_control {n : Nat} (h : n < 256) :
    codeUnit? '0' '0' (hexDigit (n / 16)) (hexDigit (n % 16)) = some n := by
  have hzero : hexValue? '0' = some 0 := by decide
  rw [codeUnit?, hzero, hexValue?_hexDigit (Nat.div_lt_of_lt_mul (by omega)),
    hexValue?_hexDigit (Nat.mod_lt _ (by decide))]
  exact congrArg some (by omega)

namespace Piece

/-- A code unit of a control character stands for that character. -/
theorem join?_unit {n : Nat} (h : n < 32) (ps : List Piece) :
    join? (.unit n :: ps) = (join? ps).map (Char.ofNat n :: ·) := by
  have hlead : isLeading n = false := by simp [isLeading]; omega
  have htrail : isTrailing n = false := by simp [isTrailing]; omega
  cases ps with
  | nil => simp [join?, hlead, htrail]
  | cons p ps => cases p <;> simp [join?, hlead, htrail]

theorem scan_escape {e c : Char} (he : e ≠ 'u') (h : unescape? e = some c) (rest : List Char) :
    scan ('\\' :: e :: rest) = (scan rest).map fun r ↦ (.char c :: r.1, r.2) := by
  rw [scan, h]
  · cases scan rest <;> rfl
  · exact fun _ _ _ _ _ hu _ ↦ he hu

theorem scan_unit {n : Nat} {a b c d : Char} (h : codeUnit? a b c d = some n) (rest : List Char) :
    scan ('\\' :: 'u' :: a :: b :: c :: d :: rest) =
      (scan rest).map fun r ↦ (.unit n :: r.1, r.2) := by
  rw [scan, h]
  cases scan rest <;> rfl

theorem scan_char {c : Char} (hquote : c ≠ '"') (hslash : c ≠ '\\') (hcontrol : ¬ c.toNat < 32)
    (rest : List Char) : scan (c :: rest) = (scan rest).map fun r ↦ (.char c :: r.1, r.2) := by
  rw [scan, if_neg (not_or.2 ⟨hslash, hcontrol⟩)]
  · cases scan rest <;> rfl
  · exact hquote
  · exact fun _ _ _ _ _ hc _ ↦ hslash hc
  · exact fun _ _ hc _ ↦ hslash hc

/-- A written character is read as a piece that stands for it. -/
theorem exists_scan_quoteChar (c : Char) (rest : List Char) : ∃ piece,
    scan (quoteChar c ++ rest) = (scan rest).map (fun r ↦ (piece :: r.1, r.2)) ∧
      ∀ ps, join? (piece :: ps) = (join? ps).map (c :: ·) := by
  have hescape {e : Char} (he : e ≠ 'u') (h : unescape? e = some c) : ∃ piece,
      scan ('\\' :: e :: rest) = (scan rest).map (fun r ↦ (piece :: r.1, r.2)) ∧
        ∀ ps, join? (piece :: ps) = (join? ps).map (c :: ·) :=
    ⟨.char c, scan_escape he h rest, fun _ ↦ rfl⟩
  rw [quoteChar]
  split_ifs with hquote hslash hback htab hline hpage hreturn hcontrol
  · exact hescape (e := '"') (by decide) (by rw [hquote]; rfl)
  · exact hescape (e := '\\') (by decide) (by rw [hslash]; rfl)
  · exact hescape (e := 'b') (by decide) (hback ▸ rfl)
  · exact hescape (e := 't') (by decide) (htab ▸ rfl)
  · exact hescape (e := 'n') (by decide) (hline ▸ rfl)
  · exact hescape (e := 'f') (by decide) (hpage ▸ rfl)
  · exact hescape (e := 'r') (by decide) (hreturn ▸ rfl)
  · refine ⟨.unit c.toNat, scan_unit (codeUnit?_control (by omega)) rest, fun ps ↦ ?_⟩
    rw [join?_unit hcontrol, Char.ofNat_toNat]
  · exact ⟨.char c, scan_char hquote hslash hcontrol rest, fun _ ↦ rfl⟩

/-- A written text is read up to the quotation mark behind it, and as itself. -/
theorem exists_scan_quoted (s rest : List Char) : ∃ pieces,
    scan (s.flatMap quoteChar ++ '"' :: rest) = some (pieces, rest) ∧ join? pieces = some s := by
  induction s with
  | nil => exact ⟨[], rfl, rfl⟩
  | cons c s ih =>
    obtain ⟨pieces, hscan, hjoin⟩ := ih
    obtain ⟨piece, hpiece, hjoin'⟩ := exists_scan_quoteChar c (s.flatMap quoteChar ++ '"' :: rest)
    refine ⟨piece :: pieces, ?_, ?_⟩
    · rw [List.flatMap_cons, List.append_assoc, hpiece, hscan, Option.map_some]
    · rw [hjoin', hjoin, Option.map_some]

end Piece

/-! ### Numbers -/

/-- Nothing that could go on with a number stands in front. -/
def NoNumber (cs : List Char) : Prop :=
  ∀ c ∈ cs.head?, ¬ c.isDigit ∧ c ≠ '.' ∧ c ≠ 'e' ∧ c ≠ 'E'

theorem decimal_toDigits (n : Nat) : decimal (Nat.toDigits 10 n) = n := by
  have h := Nat.ofDigitChars_ten_toDigits (n := n)
  rw [Nat.ofDigitChars_eq_foldl] at h
  refine Eq.trans ?_ h
  rw [decimal]
  congr 1
  funext n c
  rw [Nat.mul_comm]
  rfl

theorem scanDigits_toDigits (n : Nat) {cs : List Char} (h : NoNumber cs) :
    scanDigits (Nat.toDigits 10 n ++ cs) = some (Nat.toDigits 10 n, cs) := by
  have hdigits : ∀ c ∈ Nat.toDigits 10 n, c.isDigit = true := fun c ↦
    Nat.isDigit_of_mem_toDigits (by decide) (by decide)
  have hrest : cs.takeWhile Char.isDigit = [] ∧ cs.dropWhile Char.isDigit = cs := by
    cases cs with
    | nil => exact ⟨rfl, rfl⟩
    | cons c cs =>
      have hc := (h c rfl).1
      exact ⟨List.takeWhile_cons_of_neg hc, List.dropWhile_cons_of_neg hc⟩
  have htake : (Nat.toDigits 10 n ++ cs).takeWhile Char.isDigit = Nat.toDigits 10 n := by
    rw [List.takeWhile_append_of_pos hdigits, hrest.1, List.append_nil]
  have hdrop : (Nat.toDigits 10 n ++ cs).dropWhile Char.isDigit = cs := by
    rw [List.dropWhile_append_of_pos hdigits, hrest.2]
  rw [scanDigits, htake, hdrop]
  cases hd : Nat.toDigits 10 n with
  | nil => exact absurd hd Nat.toDigits_ne_nil
  | cons d ds => rfl

/-- No number is written with a zero in front. -/
theorem head?_toDigits_ne_zero {n : Nat} (h : 0 < n) : (Nat.toDigits 10 n).head? ≠ some '0' := by
  induction n using Nat.strongRecOn with
  | ind n ih =>
    rw [Nat.toDigits_eq_if (by decide)]
    split
    · next hlt => simp; omega
    · next hle =>
      have hpos : 0 < n / 10 := Nat.div_pos (by omega) (by decide)
      rw [List.head?_append_of_ne_nil _ Nat.toDigits_ne_nil]
      exact ih (n / 10) (Nat.div_lt_self h (by decide)) hpos

theorem scanWhole_toDigits (n : Nat) {cs : List Char} (h : NoNumber cs) :
    scanWhole (Nat.toDigits 10 n ++ cs) = some (Nat.toDigits 10 n, cs) := by
  rw [scanWhole, scanDigits_toDigits n h]
  refine if_neg fun hboth ↦ ?_
  obtain ⟨hzero, hlength⟩ := hboth
  rcases Nat.eq_zero_or_pos n with rfl | hn
  · simp at hlength
  · exact head?_toDigits_ne_zero hn hzero

theorem scanFraction_of_noNumber {cs : List Char} (h : NoNumber cs) :
    scanFraction cs = some (none, cs) := by
  cases cs with
  | nil => rfl
  | cons c cs =>
    have hc := (h c rfl).2.1
    rw [scanFraction]
    exact fun _ hcs ↦ hc (List.cons.inj hcs).1

theorem scanExponent_of_noNumber {cs : List Char} (h : NoNumber cs) :
    scanExponent cs = some (none, cs) := by
  cases cs with
  | nil => rfl
  | cons c cs =>
    have hc := (h c rfl).2.2
    rw [scanExponent, if_neg (by simpa using hc)]

theorem intText_natCast (n : Nat) : intText n = Nat.toDigits 10 n :=
  Nat.toList_repr

theorem intText_negSucc (n : Nat) : intText (.negSucc n) = '-' :: Nat.toDigits 10 (n + 1) := by
  rw [intText, Int.toString_eq_repr, Int.repr_eq_if, if_neg (by omega), String.toList_append]
  exact congrArg _ Nat.toList_repr

/-- Digits with nothing behind them that goes on with a number. -/
theorem scanNumber_eq {cs whole rest : List Char}
    (hwhole : scanWhole (if cs.head? = some '-' then cs.tail else cs) = some (whole, rest))
    (hrest : NoNumber rest) :
    scanNumber cs = some (numberOf (decide (cs.head? = some '-')) whole none none, rest) := by
  simp only [scanNumber, hwhole, scanFraction_of_noNumber hrest, scanExponent_of_noNumber hrest,
    Option.bind_eq_bind, Option.bind_some, Option.pure_def]

/-- A written integer is read as itself. -/
theorem scanNumber_intText {n : Int} (hn : (Value.int n).Faithful) {cs : List Char}
    (h : NoNumber cs) : scanNumber (intText n ++ cs) = some (.int n, cs) := by
  cases n with
  | ofNat n =>
    have hn : (n : Int) < UInt64.size := hn.2
    have hhead : (Nat.toDigits 10 n ++ cs).head? ≠ some '-' := by
      rw [List.head?_append_of_ne_nil _ Nat.toDigits_ne_nil]
      intro hminus
      have := Nat.isDigit_of_mem_toDigits (by decide) (by decide) (List.mem_of_mem_head? hminus)
      exact absurd this (by decide)
    have hnumber : numberOf false (Nat.toDigits 10 n) none none = .int n := by
      rw [numberOf, decimal_toDigits, if_neg (by simp), if_pos (by simp; omega)]
    rw [Int.ofNat_eq_natCast, intText_natCast,
      scanNumber_eq (by rw [if_neg hhead]; exact scanWhole_toDigits n h) h, decide_eq_false hhead,
      hnumber]
  | negSucc n =>
    have hn : Int64.minValue.toInt ≤ -((n + 1 : Nat) : Int) := hn.1
    have hhead : ('-' :: Nat.toDigits 10 (n + 1) ++ cs).head? = some '-' := rfl
    have hnumber : numberOf true (Nat.toDigits 10 (n + 1)) none none = .int (.negSucc n) := by
      rw [numberOf, decimal_toDigits, if_pos ⟨rfl, rfl, rfl, Nat.succ_pos n, hn⟩]
      rfl
    rw [intText_negSucc,
      scanNumber_eq (by rw [if_pos hhead]; exact scanWhole_toDigits (n + 1) h) h,
      decide_eq_true hhead, hnumber]

/-! ### Tokens -/

namespace Token

theorem scan_blank {c : Char} (h : isBlank c = true) (cs : List Char) :
    scan (c :: cs) = scan cs := by
  rw [scan, if_pos h]

theorem scan_of_scanOne {c : Char} {cs rest : List Char} {t : Token} (hblank : isBlank c = false)
    (h : scanOne c cs = some (t, rest)) : scan (c :: cs) = t :: scan rest := by
  rw [scan, if_neg (by simp [hblank])]
  split
  · next h' => rw [h] at h'; cases h'
  · next h' => rw [h] at h'; cases h'; rfl

theorem scan_newLine (depth : Nat) (cs : List Char) : scan (newLine depth ++ cs) = scan cs := by
  have hspaces (n : Nat) : scan (List.replicate n ' ' ++ cs) = scan cs := by
    induction n with
    | zero => rfl
    | succ n ih => rw [List.replicate_succ, List.cons_append, scan_blank rfl, ih]
  rw [newLine, List.cons_append, scan_blank rfl, hspaces]

theorem scan_punctuation {c : Char} {t : Token} (h : punctuation? c = some t)
    (hblank : isBlank c = false) (cs : List Char) : scan (c :: cs) = t :: scan cs :=
  scan_of_scanOne hblank (by rw [scanOne, h])

theorem scan_quote (s : String) (cs : List Char) :
    scan (quote s.toList ++ cs) = .string (some s) :: scan cs := by
  obtain ⟨pieces, hscan, hjoin⟩ := Piece.exists_scan_quoted s.toList cs
  have hone : scanOne '"' (s.toList.flatMap quoteChar ++ '"' :: cs) =
      some (.string (some s), cs) := by
    have hpunctuation : punctuation? '"' = none := rfl
    rw [scanOne, hpunctuation]
    simp only [if_true, hscan, Option.map_some, hjoin, String.ofList_toList]
  rw [quote, List.append_assoc, List.singleton_append, List.cons_append]
  exact scan_of_scanOne rfl hone

theorem isBlank_of_isDigit {c : Char} (h : c.isDigit = true) : isBlank c = false := by
  rw [isBlank]
  simp only [Bool.or_eq_false_iff, decide_eq_false_iff_not]
  refine ⟨⟨⟨?_, ?_⟩, ?_⟩, ?_⟩ <;> rintro rfl <;> exact absurd h (by decide)

theorem punctuation?_of_isDigit {c : Char} (h : c.isDigit = true) : punctuation? c = none := by
  rw [punctuation?]
  all_goals rintro rfl; exact absurd h (by decide)

theorem scan_intText {n : Int} (hn : (Value.int n).Faithful) {cs : List Char} (h : NoNumber cs) :
    scan (intText n ++ cs) = .scalar (.int n) :: scan cs := by
  have hone {c : Char} {ds : List Char} (htext : intText n = c :: ds)
      (hpunctuation : punctuation? c = none) (hquote : c ≠ '"') (hc : c = '-' ∨ c.isDigit) :
      scanOne c (ds ++ cs) = some (.scalar (.int n), cs) := by
    rw [scanOne, hpunctuation]
    simp only [if_neg hquote, if_pos hc]
    rw [← List.cons_append, ← htext, scanNumber_intText hn h, Option.map_some]
  cases n with
  | ofNat n =>
    obtain ⟨c, ds, htext⟩ := List.exists_cons_of_ne_nil (Nat.toDigits_ne_nil (n := n) (b := 10))
    have hc : c.isDigit = true :=
      Nat.isDigit_of_mem_toDigits (by decide) (by decide) (htext ▸ List.mem_cons_self ..)
    have hquote : c ≠ '"' := by
      rintro rfl
      exact absurd hc (by decide)
    rw [show intText (.ofNat n) = c :: ds from (intText_natCast n).trans htext, List.cons_append]
    exact scan_of_scanOne (isBlank_of_isDigit hc)
      (hone ((intText_natCast n).trans htext) (punctuation?_of_isDigit hc) hquote (.inr hc))
  | negSucc n =>
    rw [intText_negSucc, List.cons_append]
    exact scan_of_scanOne rfl (hone (intText_negSucc n) rfl (by decide) (.inl rfl))

end Token

namespace Token

/-- The most brackets that are open at the same time, some being open in front of the tokens. -/
def nestingFrom (opened : Nat) : List Token → Nat
  | [] => opened
  | .openArray :: ts | .openObject :: ts => max opened (nestingFrom (opened + 1) ts)
  | .closeArray :: ts | .closeObject :: ts => max opened (nestingFrom (opened - 1) ts)
  | _ :: ts => max opened (nestingFrom opened ts)

/-- The most brackets that are open at the same time in a text. -/
def nesting (text : List Char) : Nat :=
  nestingFrom 0 (scan text)

theorem le_nestingFrom (opened : Nat) (ts : List Token) : opened ≤ nestingFrom opened ts := by
  cases ts with
  | nil => exact Nat.le_refl _
  | cons t ts => cases t <;> exact Nat.le_max_left ..

end Token

namespace Value

mutual

/-- The tokens of the text of a value. -/
def tokens : Value → List Token
  | .null => [.scalar .null]
  | .bool b => [.scalar (.bool b)]
  | .int n => [.scalar (.int n)]
  | .string s => [.string (some s)]
  | .array [] => [.openArray, .closeArray]
  | .array (v :: vs) => .openArray :: v.tokens ++ tokensOfItems vs
  | .object [] => [.openObject, .closeObject]
  | .object ((k, v) :: ms) => .openObject :: .string k :: .colon :: v.tokens ++ tokensOfMembers ms
  | .gap _ => [.stray]

/-- The tokens of the items after the first one, with the closing bracket. -/
def tokensOfItems : List Value → List Token
  | [] => [.closeArray]
  | v :: vs => .comma :: v.tokens ++ tokensOfItems vs

/-- The tokens of the members after the first one, with the closing bracket. -/
def tokensOfMembers : List Member → List Token
  | [] => [.closeObject]
  | (k, v) :: ms => .comma :: .string k :: .colon :: v.tokens ++ tokensOfMembers ms

end

theorem noNumber_prettyItems (d : Nat) (vs : List Value) (cs : List Char) :
    NoNumber (prettyItems d vs ++ cs) := by
  cases vs <;> rintro _ ⟨⟩ <;> decide

theorem noNumber_prettyMembers (d : Nat) (ms : List Member) (cs : List Char) :
    NoNumber (prettyMembers d ms ++ cs) := by
  cases ms <;> rintro _ ⟨⟩ <;> decide

open Token in
theorem scan_keyText {k : Option String} (hk : k.isSome) (cs : List Char) :
    scan (keyText k ++ ':' :: ' ' :: cs) = .string k :: .colon :: scan cs := by
  obtain ⟨k, rfl⟩ := Option.isSome_iff_exists.1 hk
  rw [keyText, Option.getD_some, scan_quote, scan_punctuation (t := .colon) rfl rfl, scan_blank rfl]

open Token in
mutual

/-- The text of a faithful value has its tokens, whatever follows that is no part of a number. -/
theorem scan_pretty : (v : Value) → (d : Nat) → (cs : List Char) → v.Faithful → NoNumber cs →
    scan (v.pretty d ++ cs) = v.tokens ++ scan cs
  | .null, _, _, _, _ => scan_of_scanOne rfl rfl
  | .bool true, _, _, _, _ => scan_of_scanOne rfl rfl
  | .bool false, _, _, _, _ => scan_of_scanOne rfl rfl
  | .int _, _, _, hv, hcs => scan_intText hv hcs
  | .string s, _, cs, _, _ => scan_quote s cs
  | .array [], _, cs, _, _ => by
    rw [pretty, List.cons_append, List.singleton_append, scan_punctuation (t := .openArray) rfl rfl,
      scan_punctuation (t := .closeArray) rfl rfl]
    rfl
  | .array (v :: vs), d, cs, ⟨hv, hvs⟩, _ => by
    rw [pretty, List.append_assoc, List.append_assoc, List.cons_append,
      scan_punctuation (t := .openArray) rfl rfl, scan_newLine,
      scan_pretty v (d + 1) _ hv (noNumber_prettyItems d vs cs), scan_prettyItems vs d cs hvs]
    simp only [tokens, List.cons_append, List.append_assoc]
  | .object [], _, cs, _, _ => by
    rw [pretty, List.cons_append, List.singleton_append,
      scan_punctuation (t := .openObject) rfl rfl, scan_punctuation (t := .closeObject) rfl rfl]
    rfl
  | .object ((k, v) :: ms), d, cs, ⟨⟨hk, hv⟩, hms⟩, _ => by
    rw [pretty, List.append_assoc, List.append_assoc, List.append_assoc, List.cons_append,
      scan_punctuation (t := .openObject) rfl rfl, scan_newLine, List.cons_append, List.cons_append,
      scan_keyText hk, scan_pretty v (d + 1) _ hv (noNumber_prettyMembers d ms cs),
      scan_prettyMembers ms d cs hms]
    simp only [tokens, List.cons_append, List.append_assoc]
  | .gap _, _, _, hv, _ => hv.elim

/-- The text of the items after the first one. -/
theorem scan_prettyItems : (vs : List Value) → (d : Nat) → (cs : List Char) → FaithfulItems vs →
    scan (prettyItems d vs ++ cs) = tokensOfItems vs ++ scan cs
  | [], d, cs, _ => by
    rw [prettyItems, List.append_assoc, scan_newLine, List.singleton_append,
      scan_punctuation (t := .closeArray) rfl rfl]
    rfl
  | v :: vs, d, cs, ⟨hv, hvs⟩ => by
    rw [prettyItems, List.append_assoc, List.append_assoc, List.cons_append,
      scan_punctuation (t := .comma) rfl rfl, scan_newLine,
      scan_pretty v (d + 1) _ hv (noNumber_prettyItems d vs cs), scan_prettyItems vs d cs hvs]
    simp only [tokensOfItems, List.cons_append, List.append_assoc]

/-- The text of the members after the first one. -/
theorem scan_prettyMembers : (ms : List Member) → (d : Nat) → (cs : List Char) →
    FaithfulMembers ms → scan (prettyMembers d ms ++ cs) = tokensOfMembers ms ++ scan cs
  | [], d, cs, _ => by
    rw [prettyMembers, List.append_assoc, scan_newLine, List.singleton_append,
      scan_punctuation (t := .closeObject) rfl rfl]
    rfl
  | (k, v) :: ms, d, cs, ⟨⟨hk, hv⟩, hms⟩ => by
    rw [prettyMembers, List.append_assoc, List.append_assoc, List.append_assoc, List.cons_append,
      scan_punctuation (t := .comma) rfl rfl, scan_newLine, List.cons_append, List.cons_append,
      scan_keyText hk, scan_pretty v (d + 1) _ hv (noNumber_prettyMembers d ms cs),
      scan_prettyMembers ms d cs hms]
    simp only [tokensOfMembers, List.cons_append, List.append_assoc]

end

/-! ### Reading -/

/-- Where an item may begin it does not matter that the array may also end. -/
theorem foldl_step_firstItem (v : Value) (outer : List Frame) :
    v.tokens.foldl Reader.step (.firstItem outer) =
      v.tokens.foldl Reader.step (.value (.array [] :: outer)) := by
  rcases v with _ | _ | _ | _ | (_ | _) | (_ | _) | _ <;> rfl

mutual

/-- The tokens of a faithful value are read as that value. -/
theorem foldl_step_tokens : (v : Value) → v.Faithful → (outer : List Frame) →
    v.tokens.foldl Reader.step (.value outer) = .supply v outer
  | .null, _, _ => rfl
  | .bool _, _, _ => rfl
  | .int _, _, _ => rfl
  | .string _, _, _ => rfl
  | .array [], _, _ => rfl
  | .array (v :: vs), ⟨hv, hvs⟩, outer => by
    rw [tokens, List.foldl_append, List.foldl_cons]
    show (tokensOfItems vs).foldl _ (v.tokens.foldl _ (Reader.firstItem outer)) = _
    rw [foldl_step_firstItem, foldl_step_tokens v hv]
    exact foldl_step_tokensOfItems vs hvs [v] outer
  | .object [], _, _ => rfl
  | .object ((k, v) :: ms), ⟨⟨_, hv⟩, hms⟩, outer => by
    rw [tokens, List.foldl_append, List.foldl_cons, List.foldl_cons, List.foldl_cons]
    show (tokensOfMembers ms).foldl _ (v.tokens.foldl _ (Reader.value (.object [] k :: outer))) = _
    rw [foldl_step_tokens v hv]
    exact foldl_step_tokensOfMembers ms hms [(k, v)] outer
  | .gap _, hv, _ => hv.elim

/-- The items after those that were read. -/
theorem foldl_step_tokensOfItems : (vs : List Value) → FaithfulItems vs → (items : List Value) →
    (outer : List Frame) → (tokensOfItems vs).foldl Reader.step (.afterItem items outer) =
      .supply (.array (items.reverse ++ vs)) outer
  | [], _, items, outer => by
    rw [List.append_nil]
    rfl
  | v :: vs, ⟨hv, hvs⟩, items, outer => by
    rw [tokensOfItems, List.foldl_append, List.foldl_cons]
    show (tokensOfItems vs).foldl _ (v.tokens.foldl _ (Reader.value (.array items :: outer))) = _
    rw [foldl_step_tokens v hv]
    refine (foldl_step_tokensOfItems vs hvs (v :: items) outer).trans ?_
    rw [List.reverse_cons, List.append_assoc, List.singleton_append]

/-- The members after those that were read. -/
theorem foldl_step_tokensOfMembers : (ms : List Member) → FaithfulMembers ms →
    (members : List Member) → (outer : List Frame) →
    (tokensOfMembers ms).foldl Reader.step (.afterMember members outer) =
      .supply (.object (members.reverse ++ ms)) outer
  | [], _, members, outer => by
    rw [List.append_nil]
    rfl
  | (k, v) :: ms, ⟨⟨_, hv⟩, hms⟩, members, outer => by
    rw [tokensOfMembers, List.foldl_append, List.foldl_cons, List.foldl_cons, List.foldl_cons]
    show (tokensOfMembers ms).foldl _
      (v.tokens.foldl _ (Reader.value (.object members k :: outer))) = _
    rw [foldl_step_tokens v hv]
    refine (foldl_step_tokensOfMembers ms hms ((k, v) :: members) outer).trans ?_
    rw [List.reverse_cons, List.append_assoc, List.singleton_append]

end

theorem scan_prettyText {v : Value} (h : v.Faithful) :
    Token.scan v.prettyText.toList = v.tokens := by
  have hscan := scan_pretty v 0 [] h (fun _ hc ↦ by cases hc)
  rw [List.append_nil, Token.scan, List.append_nil] at hscan
  rw [prettyText, String.toList_ofList, hscan]

/-- What was written is read back, with nothing behind it. -/
theorem ofText_prettyText {v : Value} (h : v.Faithful) :
    Reading.ofText v.prettyText.toList = ⟨v, true⟩ := by
  rw [Reading.ofText, scan_prettyText h, foldl_step_tokens v h]
  rfl

/-! ### Nesting -/

open Token

mutual

/-- A value is nested as deep as its brackets, on top of those that are open in front of it. -/
theorem nestingFrom_tokens : (v : Value) → (opened : Nat) → (ts : List Token) →
    nestingFrom opened (v.tokens ++ ts) = max (opened + v.depth) (nestingFrom opened ts)
  | .null, _, _ | .bool _, _, _ | .int _, _, _ | .string _, _, _ | .gap _, _, _ => rfl
  | .array [], opened, ts => by
    have hle := le_nestingFrom opened ts
    simp only [tokens, List.cons_append, List.nil_append, nestingFrom, depth, depthOfItems,
      Nat.add_sub_cancel]
    omega
  | .array (v :: vs), opened, ts => by
    have hv := nestingFrom_tokens v (opened + 1) (tokensOfItems vs ++ ts)
    have hvs := nestingFrom_tokensOfItems vs opened ts
    rw [tokens, List.append_assoc, List.cons_append, nestingFrom, hv, hvs, depth, depthOfItems]
    omega
  | .object [], opened, ts => by
    have hle := le_nestingFrom opened ts
    simp only [tokens, List.cons_append, List.nil_append, nestingFrom, depth, depthOfMembers,
      Nat.add_sub_cancel]
    omega
  | .object ((k, v) :: ms), opened, ts => by
    have hv := nestingFrom_tokens v (opened + 1) (tokensOfMembers ms ++ ts)
    have hms := nestingFrom_tokensOfMembers ms opened ts
    simp only [tokens, List.cons_append, List.append_assoc, nestingFrom, hv, hms, depth,
      depthOfMembers]
    omega

/-- The items after the first one, inside their bracket. -/
theorem nestingFrom_tokensOfItems : (vs : List Value) → (opened : Nat) → (ts : List Token) →
    nestingFrom (opened + 1) (tokensOfItems vs ++ ts) =
      max (opened + 1 + depthOfItems vs) (nestingFrom opened ts)
  | [], _, _ => rfl
  | v :: vs, opened, ts => by
    have hv := nestingFrom_tokens v (opened + 1) (tokensOfItems vs ++ ts)
    have hvs := nestingFrom_tokensOfItems vs opened ts
    simp only [tokensOfItems, List.cons_append, List.append_assoc, nestingFrom, hv, hvs,
      depthOfItems]
    omega

/-- The members after the first one, inside their bracket. -/
theorem nestingFrom_tokensOfMembers : (ms : List Member) → (opened : Nat) → (ts : List Token) →
    nestingFrom (opened + 1) (tokensOfMembers ms ++ ts) =
      max (opened + 1 + depthOfMembers ms) (nestingFrom opened ts)
  | [], _, _ => rfl
  | (k, v) :: ms, opened, ts => by
    have hv := nestingFrom_tokens v (opened + 1) (tokensOfMembers ms ++ ts)
    have hms := nestingFrom_tokensOfMembers ms opened ts
    simp only [tokensOfMembers, List.cons_append, List.append_assoc, nestingFrom, hv, hms,
      depthOfMembers]
    omega

end

/-- The brackets of a written text are nested as deep as those of the value. -/
theorem nesting_prettyText {v : Value} (h : v.Faithful) :
    nesting v.prettyText.toList = v.depth := by
  have htokens := nestingFrom_tokens v 0 []
  rw [List.append_nil, nestingFrom, Nat.zero_add, Nat.max_zero] at htokens
  rw [nesting, scan_prettyText h, htokens]

end Value

end LoopInduction.Json
