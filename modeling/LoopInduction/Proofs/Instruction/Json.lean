import LoopInduction.Instruction.Json
import LoopInduction.Proofs.Expr.Json

/-!
# Reading back instructions

An entry of a listing is read back if its ids are words and the reader may open as many brackets as
the text of the entry has; with fewer brackets it is refused, since the whole entry is taken in as
data first (`Instruction.ofListedJson?_toListedJson_iff`). Conversely whatever entry a reader
takes in, its ids are words, and it can be written with the brackets the reader had
(`Instruction.depth_of_ofListedJson?`).

## Main definitions

* `InstrId.IsWord` : the id has 32 bits.
* `Instruction.Addressable` : the id and the targets of an entry have 32 bits.

## Main results

* `Instruction.ofListedJson?_toListedJson` : reading an entry back.
* `Instruction.depth_of_ofListedJson?`, `Instruction.addressable_of_ofListedJson?` : what was read
  can be written again.
-/

namespace LoopInduction

open Json (Value)
open Json.Value

variable {loose : Bool} {d : Nat} {v : Value}

/-! ### Ids -/

namespace InstrId

variable {id : InstrId}

/-- The id has 32 bits, as every id in a text. -/
def IsWord (id : InstrId) : Prop :=
  id.index < UInt32.size

theorem faithful_toJson (h : id.IsWord) : id.toJson.Faithful :=
  faithful_nat (Nat.lt_trans h (by decide))

theorem ofJson?_toJson (h : id.IsWord) : ofJson? id.toJson = some id := by
  rw [ofJson?, toJson, below?_nat h, Option.map_some]

theorem isWord_of_ofJson? (h : ofJson? v = some id) : id.IsWord := by
  obtain ⟨n, hn, rfl⟩ := Option.map_eq_some_iff.1 h
  unfold below? at hn
  split at hn
  · next k =>
    by_cases hk : 0 ≤ k ∧ k < (UInt32.size : Nat)
    · rw [if_pos hk] at hn
      cases hn
      show k.toNat < UInt32.size
      omega
    · rw [if_neg hk] at hn
      cases hn
  · cases hn

end InstrId

/-! ### Places -/

namespace Location

variable {l : Location}

theorem faithful_toJson (l : Location) : l.toJson.Faithful := by
  rw [toJson, faithful_record_iff]
  have hword (n : UInt32) : (nat n.toNat).Faithful :=
    faithful_nat (Nat.lt_trans n.toNat_lt (by decide))
  exact List.forall_mem_cons.2 ⟨trivial,
    List.forall_mem_cons.2 ⟨hword l.line, List.forall_mem_singleton.2 (hword l.column)⟩⟩

theorem ofJson?_toJson (h : l.toJson.depth ≤ d) : ofJson? d l.toJson = some l := by
  obtain ⟨e, rfl, -⟩ := depth_record_le_iff.1 h
  have hfields? : l.toJson.fields? ["file", "line", "column"] =
      some [some (.string l.file), some (nat l.line.toNat), some (nat l.column.toNat)] :=
    fields?_record rfl (by decide)
  simp only [ofJson?, hfields?, uint32?_nat]
  rfl

end Location

/-! ### What an instruction works on -/

theorem Expr.toJson_ne_null (e : Expr) : e.toJson ≠ .null := by
  cases e <;> exact fun h ↦ by cases h

namespace Code

variable {c : Code}

theorem faithful_toJson (c : Code) : c.toJson.Faithful := by
  have hexpr (e : Expr) : e.toJson.Faithful := e.faithful_toJson
  cases c with
  | nil => trivial
  | assign lhs rhs =>
    rw [toJson, faithful_case_iff, faithful_record_iff]
    exact List.forall_mem_cons.2 ⟨hexpr lhs, List.forall_mem_singleton.2 (hexpr rhs)⟩
  | decl x | dead x => exact faithful_case_iff.2 x.faithful_toJson
  | call lhs function arguments =>
    rw [toJson, faithful_case_iff, faithful_record_iff]
    exact List.forall_mem_cons.2 ⟨faithful_option_iff.2 fun e _ ↦ hexpr e,
      List.forall_mem_cons.2 ⟨trivial,
        List.forall_mem_singleton.2 (faithful_list_iff.2 fun e _ ↦ hexpr e)⟩⟩
  | ret value => exact faithful_case_iff.2 (faithful_option_iff.2 fun e _ ↦ hexpr e)
  | expr e => exact faithful_case_iff.2 (hexpr e)

/-- An optional expression is read back. -/
private theorem orNone_expr {o : Option Expr} (h : (option Expr.toJson o).depth ≤ d) :
    orNone (Expr.ofJson? loose d) (some (option Expr.toJson o)) = some o :=
  orNone_option (fun e he ↦ Expr.ofJson?_toJson (depth_option_le_iff.1 h e he)) Expr.toJson_ne_null

theorem ofJson?_toJson (h : c.toJson.depth ≤ d) : ofJson? loose d c.toJson = some c := by
  cases c with
  | nil => cases d <;> rfl
  | assign lhs rhs =>
    obtain ⟨e, rfl, hfields⟩ := depth_case_record_le_iff.1 h
    have hfields? : (record [("lhs", lhs.toJson), ("rhs", rhs.toJson)]).fields? ["lhs", "rhs"] =
        some [some lhs.toJson, some rhs.toJson] := fields?_record rfl (by decide)
    have hlhs : Expr.ofJson? loose e lhs.toJson = some lhs :=
      Expr.ofJson?_toJson (hfields ("lhs", _) (by simp))
    have hrhs : Expr.ofJson? loose e rhs.toJson = some rhs :=
      Expr.ofJson?_toJson (hfields ("rhs", _) (by simp))
    show ofJson? loose (e + 1 + 1) (.object [(some "Assign",
      record [("lhs", lhs.toJson), ("rhs", rhs.toJson)])]) = _
    simp only [ofJson?, hfields?, hlhs, hrhs]
    rfl
  | decl x =>
    obtain ⟨e, rfl, hpayload⟩ := depth_case_le_iff.1 h
    exact congrArg (Option.map decl) (Variable.ofJson?_toJson hpayload)
  | dead x =>
    obtain ⟨e, rfl, hpayload⟩ := depth_case_le_iff.1 h
    exact congrArg (Option.map dead) (Variable.ofJson?_toJson hpayload)
  | call lhs function arguments =>
    obtain ⟨e, rfl, hfields⟩ := depth_case_record_le_iff.1 h
    have hfields? : (record [("lhs", option Expr.toJson lhs), ("function", .string function),
        ("arguments", list Expr.toJson arguments)]).fields? ["lhs", "function", "arguments"] =
        some [some (option Expr.toJson lhs), some (.string function),
          some (list Expr.toJson arguments)] := fields?_record rfl (by decide)
    have hlhs : orNone (Expr.ofJson? loose e) (some (option Expr.toJson lhs)) = some lhs :=
      orNone_expr (hfields ("lhs", option Expr.toJson lhs) (by simp))
    have harguments : (list Expr.toJson arguments).items? e (Expr.ofJson? loose) =
        some arguments := by
      have hdepth := hfields ("arguments", list Expr.toJson arguments) (by simp)
      obtain ⟨e, rfl, hitems⟩ := depth_list_le_iff.1 hdepth
      exact items?_list fun x hx ↦ Expr.ofJson?_toJson (hitems x hx)
    show callOfJson? loose (e + 1) (record [("lhs", option Expr.toJson lhs),
      ("function", .string function), ("arguments", list Expr.toJson arguments)]) = _
    simp only [callOfJson?, hfields?, hlhs, harguments, string?]
    rfl
  | ret value =>
    obtain ⟨e, rfl, hpayload⟩ := depth_case_le_iff.1 h
    exact congrArg (Option.map ret) (orNone_expr hpayload)
  | expr x =>
    obtain ⟨e, rfl, hpayload⟩ := depth_case_le_iff.1 h
    exact congrArg (Option.map expr) (Expr.ofJson?_toJson hpayload)

/-- What is read as an optional expression is written with no more brackets than the reader may
open. -/
private theorem depth_of_orNone {o : Option Expr} {x : Option Value}
    (h : orNone (Expr.ofJson? loose d) x = some o) : (option Expr.toJson o).depth ≤ d := by
  refine depth_option_le_iff.2 fun e he ↦ ?_
  obtain ⟨y, hy⟩ := exists_of_orNone h e he
  exact Expr.depth_of_ofJson? hy

private theorem depth_of_callOfJson? (h : callOfJson? loose d v = some c) :
    c.toJson.depth ≤ d + 1 := by
  unfold callOfJson? at h
  split at h
  · next e lhs function arguments hfields =>
    obtain ⟨l, hl, h⟩ := Option.bind_eq_some_iff.1 h
    obtain ⟨name, -, h⟩ := Option.bind_eq_some_iff.1 h
    obtain ⟨xs, hxs, h⟩ := Option.bind_eq_some_iff.1 h
    cases h
    obtain ⟨k, rfl, hitems⟩ := exists_of_items? hxs
    have harguments : (list Expr.toJson xs).depth ≤ k + 1 := by
      refine depth_list_le_iff.2 ⟨k, rfl, fun x hx ↦ ?_⟩
      obtain ⟨y, hy⟩ := hitems x hx
      exact Expr.depth_of_ofJson? hy
    refine depth_case_record_le_iff.2 ⟨k + 1, rfl, ?_⟩
    exact List.forall_mem_cons.2 ⟨depth_of_orNone hl,
      List.forall_mem_cons.2 ⟨Nat.zero_le _, List.forall_mem_singleton.2 harguments⟩⟩
  · cases h

/-- What is read is written with no more brackets than the reader may open. -/
theorem depth_of_ofJson? (h : ofJson? loose d v = some c) : c.toJson.depth ≤ d := by
  unfold ofJson? at h
  split at h
  · split at h
    · cases h
      exact Nat.zero_le _
    · cases h
  · next d name payload =>
    split at h
    · split at h
      · cases h
        exact Nat.zero_le _
      · cases h
    · split at h
      · next e lhs rhs hfields =>
        obtain ⟨l, hl, h⟩ := Option.bind_eq_some_iff.1 h
        obtain ⟨r, hr, h⟩ := Option.bind_eq_some_iff.1 h
        cases h
        exact depth_case_record_le_iff.2 ⟨e, rfl, List.forall_mem_cons.2
          ⟨Expr.depth_of_ofJson? hl, List.forall_mem_singleton.2 (Expr.depth_of_ofJson? hr)⟩⟩
      · cases h
    · obtain ⟨x, hx, rfl⟩ := Option.map_eq_some_iff.1 h
      exact depth_case_le_iff.2 ⟨d, rfl, Variable.depth_of_ofJson? hx⟩
    · obtain ⟨x, hx, rfl⟩ := Option.map_eq_some_iff.1 h
      exact depth_case_le_iff.2 ⟨d, rfl, Variable.depth_of_ofJson? hx⟩
    · exact depth_of_callOfJson? h
    · obtain ⟨o, ho, rfl⟩ := Option.map_eq_some_iff.1 h
      exact depth_case_le_iff.2 ⟨d, rfl, depth_of_orNone ho⟩
    · obtain ⟨x, hx, rfl⟩ := Option.map_eq_some_iff.1 h
      exact depth_case_le_iff.2 ⟨d, rfl, Expr.depth_of_ofJson? hx⟩
    · cases h
  · cases h

end Code

/-! ### Entries of a listing -/

namespace Instruction

variable {id : InstrId} {i : Instruction}

/-- The id and the targets of an entry have 32 bits. -/
def Addressable (id : InstrId) (i : Instruction) : Prop :=
  id.IsWord ∧ ∀ t ∈ i.targets, t.IsWord

theorem faithful_toMembers (h : ∀ t ∈ i.targets, t.IsWord) : ∀ m ∈ i.toMembers, m.2.Faithful := by
  have hword (n : UInt32) : (nat n.toNat).Faithful :=
    faithful_nat (Nat.lt_trans n.toNat_lt (by decide))
  have htargets : (list InstrId.toJson i.targets).Faithful :=
    faithful_list_iff.2 fun t ht ↦ InstrId.faithful_toJson (h t ht)
  have hnumber : (option (fun n ↦ nat n.toNat) i.targetNumber).Faithful :=
    faithful_option_iff.2 fun n _ ↦ hword n
  simp only [toMembers, List.forall_mem_cons, i.guard.faithful_toJson, i.code.faithful_toJson,
    i.location.faithful_toJson, htargets, hword, hnumber, true_and]
  exact ⟨trivial, trivial, trivial, fun m hm ↦ absurd hm List.not_mem_nil⟩

theorem faithful_toListedJson (h : Addressable id i) : (i.toListedJson id).Faithful :=
  faithful_record_iff.2 (List.forall_mem_cons.2
    ⟨InstrId.faithful_toJson h.1, faithful_toMembers h.2⟩)

/-- Only the guard and the code can make an entry deep. -/
theorem depth_toListedJson_le_iff : (i.toListedJson id).depth ≤ d ↔
    ∃ e, d = e + 2 ∧ i.guard.toJson.depth ≤ e + 1 ∧ i.code.toJson.depth ≤ e + 1 := by
  constructor
  · intro h
    obtain ⟨k, rfl, hfields⟩ := depth_record_le_iff.1 h
    have htargets : (list InstrId.toJson i.targets).depth ≤ k :=
      hfields ("targets", list InstrId.toJson i.targets) (by simp [toMembers])
    obtain ⟨e, rfl, -⟩ := depth_list_le_iff.1 htargets
    exact ⟨e, rfl, hfields ("guard", i.guard.toJson) (by simp [toMembers]),
      hfields ("code", i.code.toJson) (by simp [toMembers])⟩
  · rintro ⟨e, rfl, hguard, hcode⟩
    have hlocation : i.location.toJson.depth ≤ e + 1 := Nat.le_add_left 1 e
    have htargets : (list InstrId.toJson i.targets).depth ≤ e + 1 :=
      depth_list_le_iff.2 ⟨e, rfl, fun t _ ↦ Nat.zero_le e⟩
    have hnumber : (option (fun n : UInt32 ↦ nat n.toNat) i.targetNumber).depth ≤ e + 1 :=
      depth_option_le_iff.2 fun n _ ↦ Nat.zero_le _
    have hid : id.toJson.depth ≤ e + 1 := Nat.zero_le _
    have hword (n : Nat) : (nat n).depth ≤ e + 1 := Nat.zero_le _
    have hstring (s : String) : (Value.string s).depth ≤ e + 1 := Nat.zero_le _
    refine depth_record_le_iff.2 ⟨e + 1, rfl, ?_⟩
    simp only [toMembers, List.forall_mem_cons, hid, hguard, hcode, hlocation, htargets, hnumber,
      hword, hstring, true_and]
    exact fun m hm ↦ absurd hm List.not_mem_nil

/-- The fields of an instruction are read one by one. -/
theorem ofFields?_eq_some_iff {kind : Value} {guard code location function targets origin
    locationNumber targetNumber : Option Value} :
    ofFields? loose d [some kind, guard, code, location, function, targets, origin, locationNumber,
      targetNumber] = some i ↔
    Kind.ofJson? loose d kind = some i.kind ∧
    orDefault (.bool true) (Expr.ofJson? loose d) guard = some i.guard ∧
    orDefault .nil (Code.ofJson? loose d) code = some i.code ∧
    orDefault {} (Location.ofJson? d) location = some i.location ∧
    orDefault "" string? function = some i.function ∧
    orDefault [] (items? d fun _ ↦ InstrId.ofJson?) targets = some i.targets ∧
    orDefault .source (Origin.ofJson? loose d) origin = some i.origin ∧
    orDefault 0 uint32? locationNumber = some i.locationNumber ∧
    orNone uint32? targetNumber = some i.targetNumber := by
  constructor
  · intro h
    obtain ⟨_, hkind, h⟩ := Option.bind_eq_some_iff.1 h
    obtain ⟨_, hguard, h⟩ := Option.bind_eq_some_iff.1 h
    obtain ⟨_, hcode, h⟩ := Option.bind_eq_some_iff.1 h
    obtain ⟨_, hlocation, h⟩ := Option.bind_eq_some_iff.1 h
    obtain ⟨_, hfunction, h⟩ := Option.bind_eq_some_iff.1 h
    obtain ⟨_, htargets, h⟩ := Option.bind_eq_some_iff.1 h
    obtain ⟨_, horigin, h⟩ := Option.bind_eq_some_iff.1 h
    obtain ⟨_, hlocationNumber, h⟩ := Option.bind_eq_some_iff.1 h
    obtain ⟨_, htargetNumber, h⟩ := Option.bind_eq_some_iff.1 h
    cases h
    exact ⟨hkind, hguard, hcode, hlocation, hfunction, htargets, horigin, hlocationNumber,
      htargetNumber⟩
  · rintro ⟨hkind, hguard, hcode, hlocation, hfunction, htargets, horigin, hlocationNumber,
      htargetNumber⟩
    rw [ofFields?, hkind, hguard, hcode, hlocation, hfunction, htargets, horigin, hlocationNumber,
      htargetNumber]
    rfl

/-- The fields of an instruction are read back. -/
theorem ofFields?_toMembers (htargets : ∀ t ∈ i.targets, t.IsWord)
    (h : ∀ m ∈ i.toMembers, m.2.depth ≤ d) :
    ofFields? loose d (i.toMembers.map fun m ↦ some m.2) = some i := by
  have hguard : Expr.ofJson? loose d i.guard.toJson = some i.guard :=
    Expr.ofJson?_toJson (h ("guard", i.guard.toJson) (by simp [toMembers]))
  have hcode : Code.ofJson? loose d i.code.toJson = some i.code :=
    Code.ofJson?_toJson (h ("code", i.code.toJson) (by simp [toMembers]))
  have hlocation : Location.ofJson? d i.location.toJson = some i.location :=
    Location.ofJson?_toJson (h ("location", i.location.toJson) (by simp [toMembers]))
  have hids : (list InstrId.toJson i.targets).items? d (fun _ ↦ InstrId.ofJson?) =
      some i.targets := by
    obtain ⟨e, rfl, -⟩ := depth_list_le_iff.1
      (h ("targets", list InstrId.toJson i.targets) (by simp [toMembers]))
    exact items?_list fun t ht ↦ InstrId.ofJson?_toJson (htargets t ht)
  have hnumber : orNone uint32? (some (option (fun n : UInt32 ↦ nat n.toNat) i.targetNumber)) =
      some i.targetNumber :=
    orNone_option (fun n _ ↦ uint32?_nat n) fun n h ↦ by cases h
  exact ofFields?_eq_some_iff.2 ⟨i.kind.ofTag?_tag, hguard, hcode, hlocation, rfl, hids,
    i.origin.ofTag?_tag, (orDefault_some ..).trans (uint32?_nat i.locationNumber), hnumber⟩

/-- An entry is read back where its brackets may be opened. -/
theorem ofListedJson?_toListedJson (h : Addressable id i) (hdepth : (i.toListedJson id).depth ≤ d) :
    ofListedJson? d (i.toListedJson id) = some (id, i) := by
  have hstorable : (i.toListedJson id).storable d = true :=
    (storable_iff (faithful_toListedJson h)).2 hdepth
  obtain ⟨e, rfl, hfields⟩ := depth_record_le_iff.1 hdepth
  have hfields? : (i.toListedJson id).fields? ("id" :: fieldNames) =
      some (some id.toJson :: i.toMembers.map fun m ↦ some m.2) := fields?_record rfl (by decide)
  have hread : ofFields? true e (i.toMembers.map fun m ↦ some m.2) = some i :=
    ofFields?_toMembers h.2 (List.forall_mem_cons.1 hfields).2
  obtain ⟨members, hmembers⟩ : ∃ members, i.toListedJson id = .object members := ⟨_, rfl⟩
  rw [hmembers] at hstorable hfields? ⊢
  simp only [ofListedJson?, hstorable, hfields?, InstrId.ofJson?_toJson h.1, hread]
  rfl

/-- An entry that is read back had no more brackets than the reader may open. -/
theorem depth_toListedJson_of_ofListedJson? {x : InstrId × Instruction} (h : Addressable id i)
    (hread : ofListedJson? d (i.toListedJson id) = some x) : (i.toListedJson id).depth ≤ d := by
  refine (storable_iff (faithful_toListedJson h)).1 ?_
  unfold ofListedJson? at hread
  split at hread
  · next e members hmembers =>
    split at hread
    · next hstorable _ => exact hmembers ▸ hstorable
    · cases hread
  · cases hread

/-! ### What was read -/

theorem isWord_of_ofFields? {fields : List (Option Value)}
    (h : ofFields? loose d fields = some i) : ∀ t ∈ i.targets, t.IsWord := by
  unfold ofFields? at h
  split at h
  · obtain ⟨-, -, -, -, -, htargets, -⟩ := ofFields?_eq_some_iff.1 h
    obtain heq | ⟨y, hy⟩ := eq_or_exists_of_orDefault htargets
    · rw [heq]
      exact fun t ht ↦ absurd ht List.not_mem_nil
    · obtain ⟨e, -, hitems⟩ := exists_of_items? hy
      intro t ht
      obtain ⟨z, hz⟩ := hitems t ht
      exact InstrId.isWord_of_ofJson? hz
  · cases h

/-- An entry that is read comes from an id and the fields of an instruction. -/
theorem exists_of_ofListedJson? (h : ofListedJson? d v = some (id, i)) :
    ∃ e x fields, d = e + 1 ∧ InstrId.ofJson? x = some id ∧ ofFields? true e fields = some i := by
  unfold ofListedJson? at h
  split at h
  · next e members =>
    split at h
    · next x fields _ _ =>
      obtain ⟨_, hid, h⟩ := Option.bind_eq_some_iff.1 h
      obtain ⟨_, hi, h⟩ := Option.bind_eq_some_iff.1 h
      cases h
      exact ⟨e, x, fields, rfl, hid, hi⟩
    · cases h
  · cases h

theorem addressable_of_ofListedJson? (h : ofListedJson? d v = some (id, i)) :
    Addressable id i := by
  obtain ⟨e, x, fields, -, hid, hi⟩ := exists_of_ofListedJson? h
  exact ⟨InstrId.isWord_of_ofJson? hid, isWord_of_ofFields? hi⟩

/-- An entry that is read is written with no more brackets than the reader may open, one of which
is for the fields that are missing in the text. -/
theorem depth_of_ofListedJson? (h : ofListedJson? (d + 2) v = some (id, i)) :
    (i.toListedJson id).depth ≤ d + 2 := by
  obtain ⟨e, x, fields, he, -, hi⟩ := exists_of_ofListedJson? h
  cases he
  unfold ofFields? at hi
  split at hi
  · obtain ⟨-, hguard, hcode, -⟩ := ofFields?_eq_some_iff.1 hi
    refine depth_toListedJson_le_iff.2 ⟨d, rfl, ?_, ?_⟩
    · obtain heq | ⟨y, hy⟩ := eq_or_exists_of_orDefault hguard
      · rw [heq]
        exact Nat.le_add_left 1 d
      · exact Expr.depth_of_ofJson? hy
    · obtain heq | ⟨y, hy⟩ := eq_or_exists_of_orDefault hcode
      · rw [heq]
        exact Nat.zero_le _
      · exact Code.depth_of_ofJson? hy
  · cases hi

end Instruction

end LoopInduction
