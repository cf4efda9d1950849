import LoopInduction.Expr.Json
import LoopInduction.Proofs.Json.Record

/-!
# Reading back types and expressions

What is written for a type, a variable or an expression is read back by a reader that may open as
many brackets as the text has, however loosely it reads. Conversely a reader takes in nothing that
would be written with more brackets than it may open.

## Main results

* `Ty.ofJson?_toJson`, `Variable.ofJson?_toJson`, `Expr.ofJson?_toJson` : reading back.
* `Ty.depth_of_ofJson?`, `Variable.depth_of_ofJson?`, `Expr.depth_of_ofJson?` : the brackets of what
  was read.
* `Expr.faithful_toJson` : the text of an expression names it.
-/

namespace LoopInduction

open Json (Value)
open Json.Value

variable {loose : Bool} {d : Nat} {v : Value}

/-! ### Types -/

namespace Ty

variable {t : Ty}

theorem depth_of_ofBareName? {name : String} (h : ofBareName? name = some t) :
    t.toJson.depth = 0 := by
  unfold ofBareName? at h
  split at h <;> cases h <;> rfl

theorem faithful_toJson (t : Ty) : t.toJson.Faithful := by
  induction t with
  | bool | empty => trivial
  | signed w | unsigned w | float w =>
    rw [toJson, faithful_case_iff, faithful_record_iff, List.forall_mem_singleton]
    exact faithful_nat (Nat.lt_trans w.toNat_lt (by decide))
  | pointer t ih => exact faithful_case_iff.2 ih
  | array t size ih =>
    rw [toJson, faithful_case_iff, faithful_record_iff]
    exact List.forall_mem_cons.2 ⟨ih, List.forall_mem_singleton.2 (faithful_nat size.toNat_lt)⟩
  | named name => exact faithful_case_iff.2 trivial

/-- The width of a numeric type is read back. -/
private theorem width?_record {w : UInt32} (h : (record [("width", nat w.toNat)]).depth ≤ d) :
    (field? d "width" (record [("width", nat w.toNat)])).bind uint32? = some w := by
  obtain ⟨e, rfl, -⟩ := depth_record_le_iff.1 h
  rw [field?_record, Option.bind_some, uint32?_nat]

theorem ofJson?_toJson (h : t.toJson.depth ≤ d) : ofJson? loose d t.toJson = some t := by
  induction t generalizing d with
  | bool | empty => cases d <;> rfl
  | signed w | unsigned w | float w =>
    obtain ⟨e, rfl, hpayload⟩ := depth_case_le_iff.1 h
    exact congrArg (Option.map _) (width?_record hpayload)
  | pointer t ih =>
    obtain ⟨e, rfl, hpayload⟩ := depth_case_le_iff.1 h
    exact congrArg (Option.map pointer) (ih hpayload)
  | array t size ih =>
    obtain ⟨e, rfl, hfields⟩ := depth_case_record_le_iff.1 h
    have hfields? : (record [("element", t.toJson), ("size", nat size.toNat)]).fields?
        ["element", "size"] = some [some t.toJson, some (nat size.toNat)] :=
      fields?_record rfl (by decide)
    have htype : ofJson? loose e t.toJson = some t := ih (hfields ("element", _) (by simp))
    show ofJson? loose (e + 1 + 1) (.object [(some "Array",
      record [("element", t.toJson), ("size", nat size.toNat)])]) = _
    simp only [ofJson?, hfields?, htype, uint64?_nat]
    rfl
  | named name =>
    obtain ⟨e, rfl, -⟩ := depth_case_le_iff.1 h
    rfl

/-- What is read as the width of a numeric type is written inside one bracket. -/
private theorem depth_width {make : UInt32 → Ty} {name : String}
    (hmake : ∀ w, (make w).toJson = case name (record [("width", nat w.toNat)]))
    (h : ((v.field? d "width").bind uint32?).map make = some t) : t.toJson.depth ≤ d + 1 := by
  obtain ⟨w, hw, rfl⟩ := Option.map_eq_some_iff.1 h
  obtain ⟨x, hx, -⟩ := Option.bind_eq_some_iff.1 hw
  obtain ⟨e, rfl⟩ := exists_of_field? hx
  rw [hmake, depth_case_record_le_iff]
  exact ⟨e, rfl, List.forall_mem_singleton.2 (Nat.zero_le e)⟩

/-- What is read is written with no more brackets than the reader may open. -/
theorem depth_of_ofJson? (h : ofJson? loose d v = some t) : t.toJson.depth ≤ d := by
  fun_induction ofJson? loose d v generalizing t with
  | case1 | case10 => rw [depth_of_ofBareName? h]; exact Nat.zero_le _
  | case2 | case3 | case4 => exact depth_width (fun _ ↦ rfl) h
  | case5 d payload ih =>
    obtain ⟨t, ht, rfl⟩ := Option.map_eq_some_iff.1 h
    exact depth_case_le_iff.2 ⟨d, rfl, ih ht⟩
  | case7 payload d element size hfields ih =>
    obtain ⟨t, ht, h⟩ := Option.bind_eq_some_iff.1 h
    obtain ⟨n, hn, h⟩ := Option.bind_eq_some_iff.1 h
    cases h
    refine depth_case_record_le_iff.2 ⟨d, rfl, List.forall_mem_cons.2 ⟨ih ht, ?_⟩⟩
    exact List.forall_mem_singleton.2 (Nat.zero_le d)
  | case9 d payload =>
    obtain ⟨name, -, rfl⟩ := Option.map_eq_some_iff.1 h
    exact depth_case_le_iff.2 ⟨d, rfl, Nat.zero_le d⟩
  | case6 | case8 | case11 | case12 => cases h

end Ty

/-! ### Variables -/

namespace Variable

variable {x : Variable}

theorem faithful_toJson (x : Variable) : x.toJson.Faithful := by
  rw [toJson, faithful_record_iff]
  exact List.forall_mem_cons.2 ⟨trivial, List.forall_mem_singleton.2 x.type.faithful_toJson⟩

theorem ofJson?_toJson (h : x.toJson.depth ≤ d) : ofJson? loose d x.toJson = some x := by
  obtain ⟨e, rfl, hfields⟩ := depth_record_le_iff.1 h
  have hfields? : x.toJson.fields? ["identifier", "ty"] =
      some [some (.string x.name), some x.type.toJson] := fields?_record rfl (by decide)
  have htype : Ty.ofJson? loose e x.type.toJson = some x.type :=
    Ty.ofJson?_toJson (hfields ("ty", _) (by simp))
  simp only [ofJson?, hfields?, htype]
  rfl

theorem depth_of_ofJson? (h : ofJson? loose d v = some x) : x.toJson.depth ≤ d := by
  unfold ofJson? at h
  split at h
  · next e name type _ =>
    obtain ⟨n, -, h⟩ := Option.bind_eq_some_iff.1 h
    obtain ⟨t, ht, h⟩ := Option.bind_eq_some_iff.1 h
    cases h
    refine depth_record_le_iff.2 ⟨e, rfl, List.forall_mem_cons.2 ⟨Nat.zero_le e, ?_⟩⟩
    exact List.forall_mem_singleton.2 (Ty.depth_of_ofJson? ht)
  · cases h

end Variable

/-! ### Expressions -/

namespace Expr

variable {e : Expr}

theorem faithful_toJson (e : Expr) : e.toJson.Faithful := by
  induction e with
  | nil => trivial
  | bool b => exact faithful_case_iff.2 trivial
  | int n t =>
    rw [toJson, faithful_case_iff, faithful_record_iff]
    have hn : (Value.int n.toInt).Faithful :=
      ⟨n.minValue_le_toInt, Int.lt_of_le_of_lt n.toInt_le (by decide)⟩
    exact List.forall_mem_cons.2 ⟨hn, List.forall_mem_singleton.2 t.faithful_toJson⟩
  | var x => exact faithful_case_iff.2 x.faithful_toJson
  | not e ih => exact faithful_case_iff.2 ih
  | binary op lhs rhs ihl ihr =>
    rw [toJson, faithful_case_iff, faithful_record_iff]
    exact List.forall_mem_cons.2 ⟨trivial,
      List.forall_mem_cons.2 ⟨ihl, List.forall_mem_singleton.2 ihr⟩⟩
  | nondet t => exact faithful_case_iff.2 t.faithful_toJson
  | foreign text t =>
    rw [toJson, faithful_case_iff, faithful_record_iff]
    exact List.forall_mem_cons.2 ⟨trivial, List.forall_mem_singleton.2 t.faithful_toJson⟩

theorem ofJson?_toJson (h : e.toJson.depth ≤ d) : ofJson? loose d e.toJson = some e := by
  induction e generalizing d with
  | nil => cases d <;> rfl
  | bool b =>
    obtain ⟨c, rfl, -⟩ := depth_case_le_iff.1 h
    rfl
  | int n t =>
    obtain ⟨c, rfl, hfields⟩ := depth_case_record_le_iff.1 h
    have hfields? : (record [("value", .int n.toInt), ("ty", t.toJson)]).fields? ["value", "ty"] =
        some [some (.int n.toInt), some t.toJson] := fields?_record rfl (by decide)
    have htype : Ty.ofJson? loose c t.toJson = some t :=
      Ty.ofJson?_toJson (hfields ("ty", _) (by simp))
    show ofJson? loose (c + 1 + 1) (.object [(some "Int",
      record [("value", .int n.toInt), ("ty", t.toJson)])]) = _
    unfold ofJson?
    simp only [hfields?, htype, int64?_int]
    rfl
  | var x =>
    obtain ⟨c, rfl, hpayload⟩ := depth_case_le_iff.1 h
    exact congrArg (Option.map var) (Variable.ofJson?_toJson hpayload)
  | not e ih =>
    obtain ⟨c, rfl, hpayload⟩ := depth_case_le_iff.1 h
    exact congrArg (Option.map not) (ih hpayload)
  | binary op lhs rhs ihl ihr =>
    obtain ⟨c, rfl, hfields⟩ := depth_case_record_le_iff.1 h
    have hfields? : (record [("op", .string op.tag), ("lhs", lhs.toJson),
        ("rhs", rhs.toJson)]).fields? ["op", "lhs", "rhs"] =
        some [some (.string op.tag), some lhs.toJson, some rhs.toJson] :=
      fields?_record rfl (by decide)
    have hop : BinaryOp.ofJson? loose c (.string op.tag) = some op := op.ofTag?_tag
    have hlhs : ofJson? loose c lhs.toJson = some lhs := ihl (hfields ("lhs", _) (by simp))
    have hrhs : ofJson? loose c rhs.toJson = some rhs := ihr (hfields ("rhs", _) (by simp))
    show ofJson? loose (c + 1 + 1) (.object [(some "Binary", record [("op", .string op.tag),
      ("lhs", lhs.toJson), ("rhs", rhs.toJson)])]) = _
    simp only [ofJson?, hfields?, hop, hlhs, hrhs]
    rfl
  | nondet t =>
    obtain ⟨c, rfl, hpayload⟩ := depth_case_le_iff.1 h
    exact congrArg (Option.map nondet) (Ty.ofJson?_toJson hpayload)
  | foreign text t =>
    obtain ⟨c, rfl, hfields⟩ := depth_case_record_le_iff.1 h
    have hfields? : (record [("text", .string text), ("ty", t.toJson)]).fields? ["text", "ty"] =
        some [some (.string text), some t.toJson] := fields?_record rfl (by decide)
    have htype : Ty.ofJson? loose c t.toJson = some t :=
      Ty.ofJson?_toJson (hfields ("ty", _) (by simp))
    show ofJson? loose (c + 1 + 1) (.object [(some "Other",
      record [("text", .string text), ("ty", t.toJson)])]) = _
    unfold ofJson?
    simp only [hfields?, htype, string?]
    rfl

/-- What is read is written with no more brackets than the reader may open. -/
theorem depth_of_ofJson? (h : ofJson? loose d v = some e) : e.toJson.depth ≤ d := by
  fun_induction ofJson? loose d v generalizing e with
  | case1 | case3 => cases h; exact Nat.zero_le _
  | case5 d payload =>
    obtain ⟨b, -, rfl⟩ := Option.map_eq_some_iff.1 h
    exact depth_case_le_iff.2 ⟨d, rfl, Nat.zero_le d⟩
  | case6 payload d value type hfields =>
    obtain ⟨n, -, h⟩ := Option.bind_eq_some_iff.1 h
    obtain ⟨t, ht, h⟩ := Option.bind_eq_some_iff.1 h
    cases h
    refine depth_case_record_le_iff.2 ⟨d, rfl, List.forall_mem_cons.2 ⟨Nat.zero_le d, ?_⟩⟩
    exact List.forall_mem_singleton.2 (Ty.depth_of_ofJson? ht)
  | case8 d payload =>
    obtain ⟨x, hx, rfl⟩ := Option.map_eq_some_iff.1 h
    exact depth_case_le_iff.2 ⟨d, rfl, Variable.depth_of_ofJson? hx⟩
  | case9 d payload ih =>
    obtain ⟨e, he, rfl⟩ := Option.map_eq_some_iff.1 h
    exact depth_case_le_iff.2 ⟨d, rfl, ih he⟩
  | case11 payload d op lhs rhs hfields ihl ihr =>
    obtain ⟨o, -, h⟩ := Option.bind_eq_some_iff.1 h
    obtain ⟨l, hl, h⟩ := Option.bind_eq_some_iff.1 h
    obtain ⟨r, hr, h⟩ := Option.bind_eq_some_iff.1 h
    cases h
    refine depth_case_record_le_iff.2 ⟨d, rfl, List.forall_mem_cons.2 ⟨Nat.zero_le d, ?_⟩⟩
    exact List.forall_mem_cons.2 ⟨ihl hl, List.forall_mem_singleton.2 (ihr hr)⟩
  | case13 d payload =>
    obtain ⟨t, ht, rfl⟩ := Option.map_eq_some_iff.1 h
    exact depth_case_le_iff.2 ⟨d, rfl, Ty.depth_of_ofJson? ht⟩
  | case14 payload d text type hfields =>
    obtain ⟨n, -, h⟩ := Option.bind_eq_some_iff.1 h
    obtain ⟨t, ht, h⟩ := Option.bind_eq_some_iff.1 h
    cases h
    refine depth_case_record_le_iff.2 ⟨d, rfl, List.forall_mem_cons.2 ⟨Nat.zero_le d, ?_⟩⟩
    exact List.forall_mem_singleton.2 (Ty.depth_of_ofJson? ht)
  | case2 | case4 | case7 | case10 | case12 | case15 | case16 | case17 => cases h

end Expr

end LoopInduction
