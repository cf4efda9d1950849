import LoopInduction.Json.Record

/-!
# The shape of JSON values

A value is *faithful* if its text names it: there is no gap in it, every key is a text and every
integer has 64 bits. `Value.depth` is how far its brackets are nested. A faithful value is storable
exactly as far as its depth allows (`Value.storable_iff`).

## Main definitions

* `Json.Value.depth` : the most brackets that are open at the same time.
* `Json.Value.Faithful` : no gap, a text for every key, and integers of 64 bits.

## Main results

* `Json.Value.ind` : induction on the items and the values of the members.
* `Json.Value.storable_iff` : what is nested no deeper can be stored.
-/

namespace LoopInduction.Json.Value

mutual

/-- The most brackets that are open at the same time in the text of a value. -/
def depth : Value → Nat
  | .array items => depthOfItems items + 1
  | .object members => depthOfMembers members + 1
  | .null | .bool _ | .int _ | .string _ | .gap _ => 0

/-- The depth of the deepest item. -/
def depthOfItems : List Value → Nat
  | [] => 0
  | v :: vs => max v.depth (depthOfItems vs)

/-- The depth of the deepest member. -/
def depthOfMembers : List Member → Nat
  | [] => 0
  | (_, v) :: ms => max v.depth (depthOfMembers ms)

end

mutual

/-- The text of the value names it: no gap, a text for every key, and integers of 64 bits. -/
def Faithful : Value → Prop
  | .gap _ => False
  | .int n => Int64.minValue.toInt ≤ n ∧ n < UInt64.size
  | .array items => FaithfulItems items
  | .object members => FaithfulMembers members
  | .null | .bool _ | .string _ => True

/-- Every item is faithful. -/
def FaithfulItems : List Value → Prop
  | [] => True
  | v :: vs => v.Faithful ∧ FaithfulItems vs

/-- Every member has a key and a faithful value. -/
def FaithfulMembers : List Member → Prop
  | [] => True
  | (k, v) :: ms => (k.isSome ∧ v.Faithful) ∧ FaithfulMembers ms

end

/-- Induction on the items and the values of the members. -/
@[elab_as_elim]
theorem ind {motive : Value → Prop} (null : motive .null) (bool : ∀ b, motive (.bool b))
    (int : ∀ n, motive (.int n)) (string : ∀ s, motive (.string s))
    (array : ∀ items, (∀ v ∈ items, motive v) → motive (.array items))
    (object : ∀ members : List Member, (∀ m ∈ members, motive m.2) → motive (.object members))
    (gap : ∀ why, motive (.gap why)) (v : Value) : motive v :=
  @Value.rec motive (fun items ↦ ∀ v ∈ items, motive v) (fun members ↦ ∀ m ∈ members, motive m.2)
    (fun m ↦ motive m.2) null bool int string array object gap (fun _ h ↦ by cases h)
    (fun _ _ hv hvs ↦ List.forall_mem_cons.2 ⟨hv, hvs⟩) (fun _ h ↦ by cases h)
    (fun _ _ hm hms ↦ List.forall_mem_cons.2 ⟨hm, hms⟩) (fun _ _ hv ↦ hv) v

variable {v : Value} {d : Nat} {items : List Value} {members : List Member}

theorem depthOfItems_le_iff : depthOfItems items ≤ d ↔ ∀ v ∈ items, v.depth ≤ d := by
  induction items with
  | nil => simp [depthOfItems]
  | cons v vs ih => rw [depthOfItems, Nat.max_le, ih, List.forall_mem_cons]

theorem depthOfMembers_le_iff : depthOfMembers members ≤ d ↔ ∀ m ∈ members, m.2.depth ≤ d := by
  induction members with
  | nil => simp [depthOfMembers]
  | cons m ms ih => rw [depthOfMembers, Nat.max_le, ih, List.forall_mem_cons]

theorem faithfulItems_iff : FaithfulItems items ↔ ∀ v ∈ items, v.Faithful := by
  induction items with
  | nil => simp [FaithfulItems]
  | cons v vs ih => rw [FaithfulItems, ih, List.forall_mem_cons]

theorem faithfulMembers_iff :
    FaithfulMembers members ↔ ∀ m ∈ members, m.1.isSome ∧ m.2.Faithful := by
  induction members with
  | nil => simp [FaithfulMembers]
  | cons m ms ih => rw [FaithfulMembers, ih, List.forall_mem_cons]

/-! ### Values that are written -/

section Written

variable {α : Type} {f : α → Value} {xs : List α} {fields : List (String × Value)} {name : String}
  {payload : Value} {o : Option α} {n : Nat}

theorem depth_record_le_iff :
    (record fields).depth ≤ d ↔ ∃ e, d = e + 1 ∧ ∀ m ∈ fields, m.2.depth ≤ e := by
  have h (e : Nat) : (record fields).depth ≤ e + 1 ↔ ∀ m ∈ fields, m.2.depth ≤ e := by
    rw [record, depth, Nat.add_le_add_iff_right, depthOfMembers_le_iff, List.forall_mem_map]
  cases d with
  | zero => simp [record, depth]
  | succ e => simp [h]

theorem depth_list_le_iff :
    (list f xs).depth ≤ d ↔ ∃ e, d = e + 1 ∧ ∀ x ∈ xs, (f x).depth ≤ e := by
  have h (e : Nat) : (list f xs).depth ≤ e + 1 ↔ ∀ x ∈ xs, (f x).depth ≤ e := by
    rw [list, depth, Nat.add_le_add_iff_right, depthOfItems_le_iff, List.forall_mem_map]
  cases d with
  | zero => simp [list, depth]
  | succ e => simp [h]

theorem depth_case_le_iff : (case name payload).depth ≤ d ↔ ∃ e, d = e + 1 ∧ payload.depth ≤ e := by
  rw [case, depth_record_le_iff]
  simp only [List.mem_singleton, forall_eq]

/-- A case whose payload is a record takes two brackets. -/
theorem depth_case_record_le_iff : (case name (record fields)).depth ≤ d ↔
    ∃ e, d = e + 2 ∧ ∀ m ∈ fields, m.2.depth ≤ e := by
  rw [depth_case_le_iff]
  constructor
  · rintro ⟨_, rfl, hpayload⟩
    obtain ⟨e, rfl, hfields⟩ := depth_record_le_iff.1 hpayload
    exact ⟨e, rfl, hfields⟩
  · rintro ⟨e, rfl, hfields⟩
    exact ⟨e + 1, rfl, depth_record_le_iff.2 ⟨e, rfl, hfields⟩⟩

theorem depth_option_le_iff : (option f o).depth ≤ d ↔ ∀ x ∈ o, (f x).depth ≤ d := by
  cases o <;> simp [option, depth]

theorem faithful_record_iff : (record fields).Faithful ↔ ∀ m ∈ fields, m.2.Faithful := by
  rw [record, Faithful, faithfulMembers_iff, List.forall_mem_map]
  simp only [Option.isSome_some, true_and]

theorem faithful_list_iff : (list f xs).Faithful ↔ ∀ x ∈ xs, (f x).Faithful := by
  rw [list, Faithful, faithfulItems_iff, List.forall_mem_map]

theorem faithful_case_iff : (case name payload).Faithful ↔ payload.Faithful := by
  rw [case, faithful_record_iff]
  simp only [List.mem_singleton, forall_eq]

theorem faithful_option_iff : (option f o).Faithful ↔ ∀ x ∈ o, (f x).Faithful := by
  cases o <;> simp [option, Faithful]

theorem faithful_nat (h : n < UInt64.size) : (nat n).Faithful := by
  have hmin : Int64.minValue.toInt ≤ 0 := by decide
  exact ⟨by omega, by omega⟩

end Written

/-! ### Storing -/

/-- A faithful value can be stored where its brackets may be opened. -/
theorem storable_iff (h : v.Faithful) : v.storable d = true ↔ v.depth ≤ d := by
  induction v using ind generalizing d with
  | null | bool | int | string => simp [storable, depth]
  | gap => exact h.elim
  | array items ih =>
    rw [Faithful, faithfulItems_iff] at h
    cases d with
    | zero => simp [storable, depth]
    | succ d =>
      have hitems : ∀ vs ⊆ items, storableItems d vs = true ↔ depthOfItems vs ≤ d := by
        intro vs
        induction vs with
        | nil => simp [storableItems, depthOfItems]
        | cons v vs ihvs =>
          intro hsub
          obtain ⟨hv, hvs⟩ := List.cons_subset.1 hsub
          rw [storableItems, Bool.and_eq_true, ih v hv (h v hv), ihvs hvs, depthOfItems, Nat.max_le]
      rw [storable, hitems items (List.Subset.refl _), depth, Nat.add_le_add_iff_right]
  | object members ih =>
    rw [Faithful, faithfulMembers_iff] at h
    cases d with
    | zero => simp [storable, depth]
    | succ d =>
      have hmembers : ∀ ms ⊆ members, storableMembers d ms = true ↔ depthOfMembers ms ≤ d := by
        intro ms
        induction ms with
        | nil => simp [storableMembers, depthOfMembers]
        | cons m ms ihms =>
          intro hsub
          obtain ⟨hm, hms⟩ := List.cons_subset.1 hsub
          rw [storableMembers, Bool.and_eq_true, Bool.and_eq_true, ih m hm (h m hm).2, ihms hms,
            depthOfMembers, Nat.max_le]
          simp only [(h m hm).1, true_and]
      rw [storable, hmembers members (List.Subset.refl _), depth, Nat.add_le_add_iff_right]

end LoopInduction.Json.Value
