import LoopInduction.Proofs.Json.Value
import Mathlib.Data.List.Nodup

/-!
# Reading back records, lists and words

A record with different field names holds the value that was written for each of them
(`Json.Value.fields?_record`). Lists, optional values and words are read back as they were written.
In the other direction each item of a list that is read was read inside one more bracket
(`Json.Value.exists_of_items?`).

## Main results

* `Json.Value.fields?_record` : what a written record holds for its fields.
* `Json.Value.items?_list`, `Json.Value.orNone_option` : a list and an optional value read back.
* `Json.Value.exists_of_items?` : where the items of a list come from.
-/

namespace LoopInduction.Json.Value

/-! ### Records -/

section Record

variable {fields : List (String × Value)}

theorem member?_fields (h : (fields.map Prod.fst).Nodup) {m : String × Value} (hm : m ∈ fields) :
    member? (fields.map fun m ↦ (some m.1, m.2)) m.1 = some m.2 := by
  obtain ⟨pre, post, rfl⟩ := List.append_of_mem hm
  have hpre : ∀ x ∈ pre, x.1 ≠ m.1 := by
    intro x hx hxm
    rw [List.map_append, List.map_cons, List.nodup_append'] at h
    exact h.2.2 (List.mem_map_of_mem hx) (hxm ▸ List.mem_cons_self ..)
  have hfind : (pre.map fun m ↦ ((some m.1, m.2) : Member)).find? (·.1 = some m.1) = none := by
    rw [List.find?_eq_none, List.forall_mem_map]
    simpa using hpre
  rw [member?, List.map_append, List.find?_append, hfind, Option.none_or, List.map_cons,
    List.find?_cons_of_pos (by simp), Option.map_some]

theorem length_filter_fields_le (h : (fields.map Prod.fst).Nodup) (name : String) :
    ((fields.map fun m ↦ ((some m.1, m.2) : Member)).filter (·.1 = some name)).length ≤ 1 := by
  have hcount := List.nodup_iff_count_le_one.1 h name
  rw [List.count, List.countP_map] at hcount
  rw [← List.countP_eq_length_filter, List.countP_map]
  refine Nat.le_trans (Nat.le_of_eq (List.countP_congr fun m _ ↦ ?_)) hcount
  simp

/-- A written record holds what was written for its fields. -/
theorem fields?_record {names : List String} (hfields : fields.map Prod.fst = names)
    (hnodup : names.Nodup) :
    (record fields).fields? names = some (fields.map fun m ↦ some m.2) := by
  subst hfields
  have hnames : ∀ m ∈ fields, (fields.map Prod.fst).contains m.1 = true := fun m hm ↦
    List.contains_iff_mem.2 (List.mem_map_of_mem hm)
  have hfits : fits (fields.map Prod.fst) (fields.map fun m ↦ (some m.1, m.2)) = true := by
    rw [fits, Bool.and_eq_true, List.all_eq_true, List.all_eq_true, List.forall_mem_map]
    refine ⟨fun m hm ↦ ?_, fun name _ ↦ decide_eq_true (length_filter_fields_le hnodup name)⟩
    show ((fields.map Prod.fst).contains m.1 || m.2.intact) = true
    rw [hnames m hm, Bool.true_or]
  rw [record, fields?, if_pos hfits, List.map_map]
  exact congrArg some (List.map_congr_left fun m hm ↦ member?_fields hnodup hm)

theorem field?_record (d : Nat) (name : String) (v : Value) :
    (record [(name, v)]).field? (d + 1) name = some v := by
  have h : (record [(name, v)]).fields? [name] = some [some v] :=
    fields?_record rfl (List.nodup_singleton name)
  simp only [field?, h]

theorem exists_of_field? {d : Nat} {name : String} {v x : Value} (h : v.field? d name = some x) :
    ∃ e, d = e + 1 := by
  cases d with
  | zero => cases h
  | succ e => exact ⟨e, rfl⟩

end Record

/-! ### Lists -/

section List

variable {α : Type} {f : Nat → Value → Option α} {g : α → Value} {xs : List α} {v : Value}
  {d : Nat}

theorem mapM_eq_some_map {β : Type} {f : β → Option α} {g : α → β}
    (h : ∀ x ∈ xs, f (g x) = some x) : (xs.map g).mapM f = some xs := by
  induction xs with
  | nil => rfl
  | cons x xs ih =>
    obtain ⟨hx, hxs⟩ := List.forall_mem_cons.1 h
    rw [List.map_cons, List.mapM_cons, hx, ih hxs]
    rfl

/-- A written list is read back item by item. -/
theorem items?_list (h : ∀ x ∈ xs, f d (g x) = some x) :
    (list g xs).items? (d + 1) f = some xs :=
  mapM_eq_some_map h

theorem exists_of_mapM_eq_some {β : Type} {f : β → Option α} {ys : List β}
    (h : ys.mapM f = some xs) : ∀ x ∈ xs, ∃ y ∈ ys, f y = some x := by
  induction ys generalizing xs with
  | nil =>
    cases h
    exact fun _ hx ↦ absurd hx List.not_mem_nil
  | cons y ys ih =>
    rw [List.mapM_cons] at h
    obtain ⟨x, hx, h⟩ := Option.bind_eq_some_iff.1 h
    obtain ⟨xs', hxs, h⟩ := Option.bind_eq_some_iff.1 h
    cases h
    refine List.forall_mem_cons.2 ⟨⟨y, List.mem_cons_self .., hx⟩, fun z hz ↦ ?_⟩
    obtain ⟨w, hw, hwz⟩ := ih hxs z hz
    exact ⟨w, List.mem_cons_of_mem _ hw, hwz⟩

theorem forall_of_mapM_eq_some {β : Type} {f : β → Option α} {ys : List β}
    (h : ys.mapM f = some xs) : ∀ y ∈ ys, ∃ x, f y = some x := by
  induction ys generalizing xs with
  | nil => exact fun _ hy ↦ absurd hy List.not_mem_nil
  | cons y ys ih =>
    rw [List.mapM_cons] at h
    obtain ⟨x, hx, h⟩ := Option.bind_eq_some_iff.1 h
    obtain ⟨xs', hxs, -⟩ := Option.bind_eq_some_iff.1 h
    exact List.forall_mem_cons.2 ⟨⟨x, hx⟩, ih hxs⟩

/-- What is read from a list is read from its items, inside one more bracket. -/
theorem exists_of_items? (h : v.items? d f = some xs) :
    ∃ e, d = e + 1 ∧ ∀ x ∈ xs, ∃ y, f e y = some x := by
  unfold items? at h
  split at h
  · next items =>
    cases d with
    | zero => cases h
    | succ e =>
      refine ⟨e, rfl, fun x hx ↦ ?_⟩
      obtain ⟨y, -, hy⟩ := exists_of_mapM_eq_some h x hx
      exact ⟨y, hy⟩
  · cases h

/-- A written list is read only if all its items are. -/
theorem exists_of_items?_list {ys : List α} (h : (list g xs).items? d f = some ys) :
    ∃ e, d = e + 1 ∧ ∀ x ∈ xs, ∃ y, f e (g x) = some y := by
  cases d with
  | zero => cases h
  | succ e =>
    have hread : (xs.map g).mapM (f e) = some ys := h
    exact ⟨e, rfl, fun x hx ↦ forall_of_mapM_eq_some hread (g x) (List.mem_map_of_mem hx)⟩

end List

/-! ### Optional values and fields that may be missing -/

section Optional

variable {α : Type} {f : Value → Option α} {g : α → Value} {o : Option α} {v : Option Value}

theorem orDefault_some (a : α) (v : Value) : orDefault a f (some v) = f v := rfl

/-- A field that may be missing is read or stands for its default. -/
theorem eq_or_exists_of_orDefault {a x : α} (h : orDefault a f v = some x) :
    x = a ∨ ∃ y, f y = some x := by
  cases v with
  | none => exact .inl (Option.some.inj h).symm
  | some y => exact .inr ⟨y, h⟩

/-- An optional value is read back where no value is written as `null`. -/
theorem orNone_option (h : ∀ x ∈ o, f (g x) = some x) (hnull : ∀ x, g x ≠ .null) :
    orNone f (some (option g o)) = some o := by
  cases o with
  | none => rfl
  | some x =>
    have hsome : orNone f (some (g x)) = (f (g x)).map some := by
      unfold orNone
      split
      · next heq => cases heq
      · next heq => exact absurd (Option.some.inj heq) (hnull x)
      · next heq => rw [Option.some.inj heq]
    rw [option, hsome, h x rfl, Option.map_some]

/-- What is read as an optional value is read as a value. -/
theorem exists_of_orNone (h : orNone f v = some o) : ∀ x ∈ o, ∃ y, f y = some x := by
  unfold orNone at h
  split at h
  · cases h
    exact fun x hx ↦ by cases hx
  · cases h
    exact fun x hx ↦ by cases hx
  · next y _ =>
    obtain ⟨x, hx, rfl⟩ := Option.map_eq_some_iff.1 h
    exact fun z hz ↦ ⟨y, hx.trans hz⟩

end Optional

/-! ### Words -/

theorem below?_nat {n bound : Nat} (h : n < bound) : (nat n).below? bound = some n := by
  rw [nat, below?, if_pos ⟨by omega, by omega⟩, Int.toNat_natCast]

@[simp] theorem uint32?_nat (n : UInt32) : (nat n.toNat).uint32? = some n := by
  rw [uint32?, below?_nat n.toNat_lt, Option.map_some, UInt32.ofNat_toNat]

@[simp] theorem uint64?_nat (n : UInt64) : (nat n.toNat).uint64? = some n := by
  rw [uint64?, below?_nat n.toNat_lt, Option.map_some, UInt64.ofNat_toNat]

@[simp] theorem int64?_int (n : Int64) : (int n.toInt).int64? = some n := by
  rw [int64?, if_pos ⟨n.minValue_le_toInt, n.toInt_le⟩, Int64.ofInt_toInt]

end LoopInduction.Json.Value
