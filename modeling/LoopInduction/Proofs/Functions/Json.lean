import LoopInduction.Functions.Json
import LoopInduction.Proofs.Functions.NameMap
import LoopInduction.Proofs.Json.Text
import LoopInduction.Proofs.Program.Json

/-!
# Reading back whole programs

The text of all functions is read back exactly if every target of every body is live and the text
opens no more than 127 brackets at a time. What is read has the same functions, with positions in
place of ids; reading that back changes nothing any more (`Functions.ofJsonText_jsonText`).

## Main definitions

* `Functions.Addressable` : all ids and targets have 32 bits.

## Main results

* `Function.ofJson_toJson_eq_ok_iff`, `Functions.ofJson_toJson_eq_ok_iff` : reading back a function,
  and all of them.
* `Functions.settled_of_ofJsonText` : the bodies that a text holds are settled.
* `Functions.ofJsonText_jsonText` : reading back the text of all functions.
-/

namespace LoopInduction

open Json (Value Member Token Reading)
open Json.Value

variable {d : Nat} {v : Value}

theorem Except.exists_of_bind {ε α β : Type} {x : Except ε α} {f : α → Except ε β} {b : β}
    (h : x >>= f = .ok b) : ∃ a, x = .ok a ∧ f a = .ok b := by
  cases x with
  | error e => cases h
  | ok a => exact ⟨a, rfl, h⟩

/-! ### Functions -/

namespace Function

variable {f g : Function}

theorem depth_toJson_le_iff : f.toJson.depth ≤ d ↔ ∃ e, d = e + 1 ∧ f.body.toJson.depth ≤ e := by
  rw [toJson, depth_record_le_iff]
  refine exists_congr fun e ↦ and_congr_right fun _ ↦ ?_
  rw [List.forall_mem_cons, List.forall_mem_singleton]
  exact and_iff_left (Nat.zero_le e)

theorem faithful_toJson (h : f.body.Addressable) : f.toJson.Faithful :=
  faithful_record_iff.2 (List.forall_mem_cons.2 ⟨Program.faithful_toJson h,
    List.forall_mem_singleton.2 trivial⟩)

private theorem ofJson_succ (d : Nat) (f : Function) : ofJson (d + 1) f.toJson =
    (Program.ofJson d f.body.toJson).map fun p ↦ ⟨p, f.bodyAvailable⟩ := by
  show ofMembers d none none [(some "body", f.body.toJson),
    (some "body_available", .bool f.bodyAvailable)] = _
  rw [ofMembers, if_pos rfl]
  cases Program.ofJson d f.body.toJson <;> rfl

/-- A function is read back with its body. -/
theorem ofJson_toJson_eq_ok_iff : ofJson d f.toJson = .ok g ↔ ∃ e, d = e + 1 ∧
    Program.ofJson e f.body.toJson = .ok g.body ∧ g.bodyAvailable = f.bodyAvailable := by
  cases d with
  | zero => simp [ofJson]
  | succ e =>
    rw [ofJson_succ]
    cases hbody : Program.ofJson e f.body.toJson with
    | error fault => simp [hbody, Except.map]
    | ok p =>
      cases g
      simp [hbody, Except.map, eq_comm]

/-- The body that the members of a function hold is read, or has been read before. -/
private theorem exists_of_ofMembers {body : Option Program} {available : Option Bool}
    {members : List Member} (h : ofMembers d body available members = .ok f) :
    body = some f.body ∨ ∃ w, Program.ofJson d w = .ok f.body := by
  induction members generalizing body available with
  | nil =>
    unfold ofMembers at h
    split at h
    · cases h
      exact .inl rfl
    · cases h
  | cons m members ih =>
    obtain ⟨_ | key, w⟩ := m
    · cases h
    · rw [ofMembers] at h
      by_cases hbody : key = "body"
      · rw [if_pos hbody] at h
        split at h
        · cases h
        · obtain ⟨p, hp, h⟩ := Except.exists_of_bind h
          obtain heq | hread := ih h
          · exact .inr ⟨w, Option.some.inj heq ▸ hp⟩
          · exact .inr hread
      · rw [if_neg hbody] at h
        by_cases havailable : key = "body_available"
        · rw [if_pos havailable] at h
          split at h
          · cases h
          · obtain ⟨b, -, h⟩ := Except.exists_of_bind h
            exact ih h
        · rw [if_neg havailable] at h
          split at h
          · exact ih h
          · cases h

/-- The body of a function that is read is read inside one more bracket. -/
theorem exists_of_ofJson (h : ofJson d v = .ok f) :
    ∃ e w, d = e + 1 ∧ Program.ofJson e w = .ok f.body := by
  unfold ofJson at h
  split at h
  · next e members =>
    obtain heq | ⟨w, hw⟩ := exists_of_ofMembers h
    · cases heq
    · exact ⟨e, w, rfl, hw⟩
  · next e body rest =>
    obtain ⟨p, hp, h⟩ := Except.exists_of_bind h
    split at h
    · obtain ⟨b, -, h⟩ := Except.exists_of_bind h
      cases h
      exact ⟨e, body, rfl, hp⟩
    · cases h
  · cases h

/-- A function is read back if the targets in its body are live and the reader may open its
brackets. -/
theorem exists_ofJson_toJson_iff (h : f.body.Addressable) :
    (∃ g, ofJson d f.toJson = .ok g) ↔ f.body.TargetsLive ∧ f.toJson.depth ≤ d := by
  rw [depth_toJson_le_iff]
  constructor
  · rintro ⟨g, hg⟩
    obtain ⟨e, rfl, hbody, -⟩ := ofJson_toJson_eq_ok_iff.1 hg
    obtain ⟨hlive, hdepth⟩ := (Program.exists_ofJson_toJson_iff h).1 ⟨_, hbody⟩
    exact ⟨hlive, e, rfl, hdepth⟩
  · rintro ⟨hlive, e, rfl, hdepth⟩
    obtain ⟨q, hq⟩ := (Program.exists_ofJson_toJson_iff h).2 ⟨hlive, hdepth⟩
    exact ⟨⟨q, f.bodyAvailable⟩, ofJson_toJson_eq_ok_iff.2 ⟨e, rfl, hq, rfl⟩⟩

/-- The function is another one with positions in place of ids. -/
structure Renumbers (f g : Function) : Prop where
  bodyAvailable : g.bodyAvailable = f.bodyAvailable
  order : g.body.order = (List.range f.body.size).map InstrId.mk
  entries : g.body.entries = f.body.entries.map (Listing.renumbered f.body.entries)

theorem renumbers_of_ofJson (h : f.body.Addressable) (hg : ofJson d f.toJson = .ok g) :
    f.Renumbers g := by
  obtain ⟨e, -, hbody, havailable⟩ := ofJson_toJson_eq_ok_iff.1 hg
  obtain ⟨-, hbody⟩ := (Program.ofJson_toJson_eq_ok_iff h).1 hbody
  have horder : g.body.order = (List.range f.body.size).map InstrId.mk := by
    rw [← Program.length_entries]
    exact Listing.order_of_toProgram hbody
  exact ⟨havailable, horder, Listing.entries_of_toProgram hbody⟩

end Function

/-! ### All functions -/

theorem exists_forall₂_iff {α β : Type} {R : α → β → Prop} {l : List α} :
    (∃ l', List.Forall₂ R l l') ↔ ∀ x ∈ l, ∃ y, R x y := by
  induction l with
  | nil => exact ⟨fun _ _ h ↦ absurd h List.not_mem_nil, fun _ ↦ ⟨[], .nil⟩⟩
  | cons x l ih =>
    rw [List.forall_mem_cons, ← ih]
    constructor
    · rintro ⟨_, h⟩
      cases h with
      | cons hx hl => exact ⟨⟨_, hx⟩, _, hl⟩
    · rintro ⟨⟨y, hx⟩, l', hl⟩
      exact ⟨y :: l', .cons hx hl⟩

namespace NameMap

variable {α : Type} {name : String} {a : α}

/-- An entry whose name comes after all others stands at the end. -/
theorem insertEntry_of_forall_lt {l : List (String × α)} (h : ∀ e ∈ l, e.1 < name) :
    insertEntry name a l = l ++ [(name, a)] := by
  induction l with
  | nil => rfl
  | cons e l ih =>
    obtain ⟨he, hl⟩ := List.forall_mem_cons.1 h
    rw [insertEntry, if_neg (lt_asymm he), if_neg he.ne, ih hl, List.cons_append]

end NameMap

namespace Functions

variable {fs gs : Functions}

/-- Whether the second of two entries is what the text of the first one holds. -/
def Reads (d : Nat) (x y : String × Function) : Prop :=
  y.1 = x.1 ∧ Function.ofJson d x.2.toJson = .ok y.2

/-- The functions are read back one by one. -/
theorem entriesOfMembers_eq_ok_iff {m m' : NameMap Function} {l : List (String × Function)}
    (h : ∀ x ∈ m.entries, ∀ y ∈ l, x.1 < y.1) (hl : l.Pairwise (·.1 < ·.1)) :
    entriesOfMembers d m (l.map fun x ↦ (some x.1, x.2.toJson)) = .ok m' ↔
      ∃ l', m'.entries = m.entries ++ l' ∧ List.Forall₂ (Reads d) l l' := by
  induction l generalizing m with
  | nil =>
    simp only [List.map_nil, entriesOfMembers, Except.ok.injEq, List.forall₂_nil_left_iff,
      exists_eq_right, List.append_nil]
    exact ⟨fun h ↦ h ▸ rfl, fun h ↦ NameMap.ext h.symm⟩
  | cons x l ih =>
    obtain ⟨hx, hl⟩ := List.pairwise_cons.1 hl
    rw [List.map_cons, entriesOfMembers]
    cases hread : Function.ofJson d x.2.toJson with
    | error fault =>
      refine ⟨fun h ↦ (by cases h), ?_⟩
      rintro ⟨_, -, hall⟩
      cases hall with
      | cons hxy _ => cases hread.symm.trans hxy.2
    | ok g =>
      have hinsert : (m.insert x.1 g).entries = m.entries ++ [(x.1, g)] :=
        NameMap.insertEntry_of_forall_lt fun e he ↦ h e he x (List.mem_cons_self ..)
      have hlt : ∀ e ∈ (m.insert x.1 g).entries, ∀ y ∈ l, e.1 < y.1 := by
        rw [hinsert]
        intro e he y hy
        obtain he | he := List.mem_append.1 he
        · exact h e he y (List.mem_cons_of_mem _ hy)
        · rw [List.mem_singleton.1 he]
          exact hx y hy
      refine (ih hlt hl).trans ?_
      rw [hinsert]
      constructor
      · rintro ⟨l', hl', hall⟩
        exact ⟨(x.1, g) :: l', by simpa using hl', .cons ⟨rfl, hread⟩ hall⟩
      · rintro ⟨_, hl', hall⟩
        cases hall with
        | @cons _ y _ l' hxy hall =>
          have hy : y = (x.1, g) := Prod.ext hxy.1 (Except.ok.inj (hxy.2.symm.trans hread))
          exact ⟨l', by simpa [hy] using hl', hall⟩

private theorem ofJson_add_two (d : Nat) (fs : Functions) : ofJson (d + 2) fs.toJson =
    (entriesOfMembers d .empty (fs.byName.entries.map fun x ↦ (some x.1, x.2.toJson))).map
      fun m ↦ { byName := m } := by
  have hmembers : (fs.byName.entries.map fun x ↦ (x.1, x.2.toJson)).map
      (fun m ↦ ((some m.1, m.2) : Member)) =
      fs.byName.entries.map fun x ↦ (some x.1, x.2.toJson) := List.map_map
  show ofMembers (d + 1) none [(some "functions", .object _)] = _
  rw [ofMembers, if_pos rfl, hmembers, byNameOfJson]
  cases entriesOfMembers d .empty _ <;> rfl

/-- All functions are read back with nothing but their names and what is read of each of them. -/
theorem ofJson_toJson_eq_ok_iff : ofJson d fs.toJson = .ok gs ↔ ∃ e, d = e + 2 ∧
    gs = { byName := gs.byName } ∧
      List.Forall₂ (Reads e) fs.byName.entries gs.byName.entries := by
  match d with
  | 0 => simp [ofJson]
  | 1 =>
    refine ⟨fun h ↦ (by cases h), ?_⟩
    rintro ⟨e, he, -⟩
    omega
  | e + 2 =>
    have hiff (m : NameMap Function) : entriesOfMembers e .empty
        (fs.byName.entries.map fun x ↦ (some x.1, x.2.toJson)) = .ok m ↔
          List.Forall₂ (Reads e) fs.byName.entries m.entries := by
      rw [entriesOfMembers_eq_ok_iff (fun x hx ↦ absurd hx List.not_mem_nil) fs.byName.sorted]
      simp [NameMap.empty]
    simp only [ofJson_add_two, Nat.add_right_cancel_iff, exists_eq_left', ← hiff]
    cases entriesOfMembers e .empty
      (fs.byName.entries.map fun x ↦ (some x.1, x.2.toJson)) with
    | error fault => simp [Except.map]
    | ok m =>
      cases gs
      simp only [Except.map, Except.ok.injEq, mk.injEq]
      grind

/-- All ids and targets have 32 bits. -/
def Addressable (fs : Functions) : Prop :=
  ∀ x ∈ fs.byName.entries, x.2.body.Addressable

theorem faithful_toJson (h : fs.Addressable) : fs.toJson.Faithful :=
  faithful_record_iff.2 (List.forall_mem_singleton.2 (faithful_record_iff.2
    (List.forall_mem_map.2 fun x hx ↦ Function.faithful_toJson (h x hx))))

theorem depth_toJson_le_iff : fs.toJson.depth ≤ d ↔
    ∃ e, d = e + 2 ∧ ∀ x ∈ fs.byName.entries, x.2.toJson.depth ≤ e := by
  rw [toJson, depth_record_le_iff]
  simp only [List.forall_mem_singleton, depth_record_le_iff, List.forall_mem_map]
  constructor
  · rintro ⟨_, rfl, e, rfl, h⟩
    exact ⟨e, rfl, h⟩
  · rintro ⟨e, rfl, h⟩
    exact ⟨e + 1, rfl, e, rfl, h⟩

theorem map_fst_of_reads {l l' : List (String × Function)} (h : List.Forall₂ (Reads d) l l') :
    l'.map Prod.fst = l.map Prod.fst := by
  induction h with
  | nil => rfl
  | cons hx _ ih => rw [List.map_cons, List.map_cons, hx.1, ih]

/-- All functions are read back if every target is live and the reader may open the brackets. -/
theorem exists_ofJson_toJson_iff (h : fs.Addressable) : (∃ gs, ofJson d fs.toJson = .ok gs) ↔
    (∀ x ∈ fs.byName.entries, x.2.body.TargetsLive) ∧ fs.toJson.depth ≤ d := by
  have hentries (e : Nat) : (∃ l, List.Forall₂ (Reads e) fs.byName.entries l) ↔
      ∀ x ∈ fs.byName.entries, x.2.body.TargetsLive ∧ x.2.toJson.depth ≤ e := by
    rw [exists_forall₂_iff]
    refine forall₂_congr fun x hx ↦ ?_
    rw [← Function.exists_ofJson_toJson_iff (h x hx)]
    constructor
    · rintro ⟨y, -, hy⟩
      exact ⟨y.2, hy⟩
    · rintro ⟨g, hg⟩
      exact ⟨(x.1, g), rfl, hg⟩
  rw [depth_toJson_le_iff]
  constructor
  · rintro ⟨gs, hgs⟩
    obtain ⟨e, rfl, -, hall⟩ := ofJson_toJson_eq_ok_iff.1 hgs
    have hread := (hentries e).1 ⟨_, hall⟩
    exact ⟨fun x hx ↦ (hread x hx).1, e, rfl, fun x hx ↦ (hread x hx).2⟩
  · rintro ⟨hlive, e, rfl, hdepth⟩
    obtain ⟨l, hall⟩ := (hentries e).2 fun x hx ↦ ⟨hlive x hx, hdepth x hx⟩
    have hsorted : (l.map Prod.fst).Pairwise (· < ·) := by
      rw [map_fst_of_reads hall]
      exact List.pairwise_map.2 fs.byName.sorted
    exact ⟨{ byName := ⟨l, List.pairwise_map.1 hsorted⟩ },
      ofJson_toJson_eq_ok_iff.2 ⟨e, rfl, rfl, hall⟩⟩

/-! ### Texts -/

theorem ofJsonText_jsonText_eq_ofJson (h : fs.Addressable) :
    ofJsonText fs.jsonText = ofJson ReadFault.nesting fs.toJson := by
  rw [ofJsonText, ReadFault.ofText, jsonText, Value.ofText_prettyText (faithful_toJson h)]
  cases ofJson ReadFault.nesting fs.toJson <;> rfl

theorem ofJson_of_ofJsonText {text : String} (h : ofJsonText text = .ok gs) :
    ∃ v, ofJson ReadFault.nesting v = .ok gs := by
  simp only [ofJsonText, ReadFault.ofText] at h
  split at h
  · cases h
  · next heq =>
    split at h
    · cases h
      exact ⟨_, heq⟩
    · cases h

/-- Every function by name that is read is read with its body. -/
private theorem exists_of_entriesOfMembers {m m' : NameMap Function} {members : List Member}
    (h : entriesOfMembers d m members = .ok m') :
    ∀ x ∈ m'.entries, x ∈ m.entries ∨ ∃ v, Function.ofJson d v = .ok x.2 := by
  induction members generalizing m with
  | nil =>
    cases h
    exact fun x hx ↦ .inl hx
  | cons member members ih =>
    obtain ⟨_ | name, v⟩ := member
    · cases h
    · obtain ⟨f, hf, h⟩ := Except.exists_of_bind h
      intro x hx
      obtain hx | hx := ih h x hx
      · obtain rfl | hx := NameMap.eq_or_mem_of_mem_insertEntry hx
        · exact .inr ⟨v, hf⟩
        · exact .inl hx
      · exact .inr hx

private theorem exists_of_byNameOfJson {m : NameMap Function} (h : byNameOfJson d v = .ok m) :
    ∃ e, d = e + 1 ∧ ∀ x ∈ m.entries, ∃ v, Function.ofJson e v = .ok x.2 := by
  unfold byNameOfJson at h
  split at h
  · next e members =>
    refine ⟨e, rfl, fun x hx ↦ ?_⟩
    obtain hx | hread := exists_of_entriesOfMembers h x hx
    · cases hx
    · exact hread
  · cases h

private theorem exists_of_ofMembers {byName : Option (NameMap Function)} {members : List Member}
    (h : ofMembers d byName members = .ok gs) : gs = { byName := gs.byName } ∧
      (byName = some gs.byName ∨ ∃ v, byNameOfJson d v = .ok gs.byName) := by
  induction members generalizing byName with
  | nil =>
    unfold ofMembers at h
    split at h
    · cases h
      exact ⟨rfl, .inl rfl⟩
    · cases h
  | cons member members ih =>
    obtain ⟨_ | key, v⟩ := member
    · cases h
    · rw [ofMembers] at h
      by_cases hkey : key = "functions"
      · rw [if_pos hkey] at h
        split at h
        · cases h
        · obtain ⟨m, hm, h⟩ := Except.exists_of_bind h
          obtain ⟨hgs, heq | hread⟩ := ih h
          · exact ⟨hgs, .inr ⟨v, Option.some.inj heq ▸ hm⟩⟩
          · exact ⟨hgs, .inr hread⟩
      · rw [if_neg hkey] at h
        split at h
        · exact ih h
        · cases h

/-- What is read are functions by name, with nothing else about them. -/
theorem exists_of_ofJson (h : ofJson d v = .ok gs) : gs = { byName := gs.byName } ∧
    ∃ e v, d = e + 1 ∧ byNameOfJson e v = .ok gs.byName := by
  unfold ofJson at h
  split at h
  · next e members =>
    obtain ⟨hgs, heq | ⟨w, hw⟩⟩ := exists_of_ofMembers h
    · cases heq
    · exact ⟨hgs, e, w, rfl, hw⟩
  · next e functions rest =>
    obtain ⟨m, hm, h⟩ := Except.exists_of_bind h
    split at h
    · cases h
      exact ⟨rfl, e, functions, rfl, hm⟩
    · cases h
  · cases h

/-- The bodies that a text holds are settled. Three brackets stand around a body. -/
theorem settled_of_ofJson (h : ofJson (d + 7) v = .ok gs) :
    ∀ x ∈ gs.byName.entries, x.2.body.Settled (d + 4) := by
  obtain ⟨-, e, w, he, hw⟩ := exists_of_ofJson h
  obtain ⟨k, rfl, hread⟩ := exists_of_byNameOfJson hw
  intro x hx
  obtain ⟨u, hu⟩ := hread x hx
  obtain ⟨c, u, rfl, hbody⟩ := Function.exists_of_ofJson hu
  obtain rfl : d + 4 = c := by omega
  exact Program.settled_of_ofJson hbody

/-- What was read is written and read back as it is. -/
theorem ofJson_toJson_of_ofJson (h : ofJson (d + 7) v = .ok gs) :
    ofJson (d + 7) gs.toJson = .ok gs := by
  refine ofJson_toJson_eq_ok_iff.2 ⟨d + 5, rfl, (exists_of_ofJson h).1, ?_⟩
  refine List.forall₂_same.2 fun x hx ↦ ⟨rfl, ?_⟩
  exact Function.ofJson_toJson_eq_ok_iff.2
    ⟨d + 4, rfl, (settled_of_ofJson h x hx).ofJson_toJson, rfl⟩

/-- What is read back of all functions are the same functions with positions in place of ids. -/
theorem forall₂_renumbers_of_ofJson (h : fs.Addressable) (hread : ofJson d fs.toJson = .ok gs) :
    List.Forall₂ (fun x y ↦ y.1 = x.1 ∧ x.2.Renumbers y.2)
      fs.byName.entries gs.byName.entries := by
  obtain ⟨e, -, -, hall⟩ := ofJson_toJson_eq_ok_iff.1 hread
  refine (List.forall₂_and_left _ _).2 ⟨h, hall⟩ |>.imp ?_
  rintro x y ⟨hx, hname, hy⟩
  exact ⟨hname, Function.renumbers_of_ofJson hx hy⟩

/-- Reading back the text of all functions. It can be read if and only if every target of every body
is live and the text is nested at most 127 brackets deep. What is read has the same functions with
positions in place of ids. Reading once more gives the same again, slot by slot. -/
theorem ofJsonText_jsonText (h : fs.Addressable) :
    ((∃ gs, ofJsonText fs.jsonText = .ok gs) ↔
      (∀ x ∈ fs.byName.entries, x.2.body.TargetsLive) ∧
        Token.nesting fs.jsonText.toList ≤ 127) ∧
    (∀ gs, ofJsonText fs.jsonText = .ok gs →
      List.Forall₂ (fun x y ↦ y.1 = x.1 ∧ x.2.Renumbers y.2)
        fs.byName.entries gs.byName.entries) ∧
    ∀ text gs, ofJsonText text = .ok gs → ofJsonText gs.jsonText = .ok gs := by
  have hnesting : Token.nesting fs.jsonText.toList = fs.toJson.depth :=
    Value.nesting_prettyText (faithful_toJson h)
  rw [ofJsonText_jsonText_eq_ofJson h, hnesting]
  refine ⟨exists_ofJson_toJson_iff h, fun gs ↦ forall₂_renumbers_of_ofJson h, ?_⟩
  intro text gs hgs
  obtain ⟨v, hv⟩ := ofJson_of_ofJsonText hgs
  have haddressable : gs.Addressable := fun x hx ↦ (settled_of_ofJson hv x hx).addressable
  rw [ofJsonText_jsonText_eq_ofJson haddressable]
  exact ofJson_toJson_of_ofJson hv

/-- A function whose first instruction was taken out. -/
def gapped : Functions where
  byName := ⟨[("main", .ofBody ((Program.ofList
    [.skip, .goto ⟨2⟩ (.bool true), .endFunction]).erase ⟨0⟩))], List.pairwise_singleton _ _⟩

/-- The ids that are left move up, and so does the target of the jump. -/
theorem ofJsonText_jsonText_gapped : gapped.Addressable ∧
    ∃ gs, ofJsonText gapped.jsonText = .ok gs ∧ ofJsonText gs.jsonText = .ok gs ∧
      gs.byName.entries.map (·.2.body.entries) =
        [[(⟨0⟩, .goto ⟨1⟩ (.bool true)), (⟨1⟩, .endFunction)]] := by
  have haddressable : gapped.Addressable := by
    show ∀ x ∈ gapped.byName.entries, ∀ e ∈ x.2.body.entries, e.1.index < UInt32.size ∧
      ∀ t ∈ e.2.targets, t.index < UInt32.size
    decide
  obtain ⟨hiff, hrenumbers, hagain⟩ := ofJsonText_jsonText haddressable
  have hdepth : gapped.toJson.depth ≤ 127 := by decide
  rw [← Value.nesting_prettyText (faithful_toJson haddressable)] at hdepth
  obtain ⟨gs, hgs⟩ := hiff.2 ⟨by decide, hdepth⟩
  refine ⟨haddressable, gs, hgs, hagain _ _ hgs, ?_⟩
  have hall := hrenumbers gs hgs
  rw [gapped, List.forall₂_cons_left_iff] at hall
  obtain ⟨y, l, ⟨-, hy⟩, hl, hentries⟩ := hall
  rw [hentries, List.forall₂_nil_left_iff.1 hl, List.map_singleton, hy.entries]
  decide

end Functions

end LoopInduction
