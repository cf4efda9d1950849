import LoopInduction.Proofs.Functions.NameMap
import LoopInduction.Proofs.Program.Numbering

/-!
# What a refresh leaves

A refresh goes through all functions with one counter for the locations, which the functions share,
and one for the targets, which starts anew with each of them. Both count instructions in program
order, so they come out as counting does: 0, 1, 2, … over everything, and 1, 2, … over the targets
of each body. The calls are collected afresh from the bodies, and nothing that was collected before
is kept. Apart from that a refresh leaves everything as it was, and a second one has nothing to do.

The numbers have 32 bits, so the counting comes out this way for fewer than 2³² instructions.

## Main definitions

* `Program.Calls` : a body calls a function of some name.
* `Program.TargetsNumbered` : the instructions that are jumped to carry the numbers 1, 2, … in
  order.
* `Functions.Refreshed` : what a refresh makes of all functions.

## Main results

* `Functions.refresh_exact` : a refresh does that.
-/

namespace LoopInduction

/-- Numbers that fit come back out of 32 bits. -/
theorem map_toNat_map_ofNat {l : List Nat} (h : ∀ k ∈ l, k < 2 ^ 32) :
    (l.map UInt32.ofNat).map UInt32.toNat = l := by
  rw [List.map_map]
  exact (List.map_congr_left fun k hk ↦ UInt32.toNat_ofNat_of_lt' (h k hk)).trans (List.map_id l)

namespace Program

variable {p : Program} {location : Nat}

/-- The body calls a function of this name. -/
def Calls (p : Program) (name : String) : Prop :=
  ∃ id i, p.get? id = some i ∧ ∃ lhs arguments, i.code = .call lhs name arguments

theorem mem_names_callees_iff {name : String} : name ∈ p.callees.names ↔ p.Calls name := by
  rw [callees, NameMap.mem_names_ofList_iff]
  have hcallee : ∀ i, callee? i = some name ↔
      ∃ lhs arguments, i.code = .call lhs name arguments := by
    intro i
    rw [callee?]
    cases i.code <;> simp
  simp only [List.mem_filterMap, Prod.exists, mem_entries_iff, Option.map_eq_some_iff,
    Prod.mk.injEq]
  constructor
  · rintro ⟨-, id, i, hi, callee, hcall, rfl, -⟩
    exact ⟨id, i, hi, (hcallee i).1 hcall⟩
  · rintro ⟨id, i, hi, hcall⟩
    exact ⟨(), id, i, hi, name, (hcallee i).2 hcall, rfl, trivial⟩

/-- The instructions that are jumped to carry the numbers 1, 2, … in program order, the others
none. -/
structure TargetsNumbered (p : Program) : Prop where
  isSome_iff : ∀ id i, p.get? id = some i →
    (i.targetNumber.isSome ↔ ∃ c j, p.get? c = some j ∧ id ∈ j.targets)
  counted : ∃ n, p.instructions.filterMap (·.targetNumber.map UInt32.toNat) = List.range' 1 n

theorem targetsNumbered_numbered (h : p.size < 2 ^ 32) :
    (p.numbered location).TargetsNumbered where
  isSome_iff id i hi := by
    have hid : id ∈ p.order := (mem_order_iff_get? (p := p.numbered location)).2 ⟨i, hi⟩
    rw [numbered_eq, get?_map, get?_eq_some_fetch hid] at hi
    cases hi
    rw [label?_isSome_iff, mem_labelled_iff]
    simp only [numbered_eq, get?_map, Option.map_eq_some_iff]
    constructor
    · rintro ⟨-, c, j, hj, ht⟩
      exact ⟨c, _, ⟨j, hj, rfl⟩, ht⟩
    · rintro ⟨c, -, ⟨j, hj, rfl⟩, ht⟩
      exact ⟨hid, c, j, hj, ht⟩
  counted := by
    have hlength : p.labelled.length ≤ p.size := List.length_filter_le _ _
    refine ⟨p.labelled.length, ?_⟩
    rw [← List.map_filterMap, filterMap_targetNumber_numbered]
    exact map_toNat_map_ofNat fun k hk ↦ by
      have hle := (List.mem_range'_1.1 hk).2
      omega

end Program

namespace Functions

variable {fs : Functions} {name : String} {f : Function}

/-- All instructions, function after function in the order of the names, each body in program
order. -/
def instructions (fs : Functions) : List Instruction :=
  fs.byName.entries.flatMap fun e ↦ e.2.body.instructions

/-- A refresh leaves `gs` of `fs`. -/
structure Refreshed (fs gs : Functions) : Prop where
  locationNumbers : gs.instructions.map (·.locationNumber.toNat) =
    List.range fs.instructions.length
  targetNumbers : ∀ name g, gs.get? name = some g → g.body.TargetsNumbered
  callees? : ∀ name f, fs.get? name = some f →
    ∃ names, gs.callees? name = some names ∧ ∀ callee, callee ∈ names ↔ f.body.Calls callee
  /-- Of a function that is not there any more, nothing is kept. -/
  callees?_eq_none : ∀ name, fs.get? name = none → gs.callees? name = none
  revision : gs.revision = fs.revision + 1
  /-- The names, the bodies with their slots and their order, and all else of the instructions. -/
  unnumbered : (gs.byName.map fun _ g ↦ { g with body := g.body.unnumbered }) =
    fs.byName.map fun _ f ↦ { f with body := f.body.unnumbered }
  /-- Linked slots are numbered where they are, and the links stay. -/
  linked : ∀ name f (a : Arena), fs.get? name = some f → a.Links f.body →
    ∃ g location, gs.get? name = some g ∧ (a.numbered location).Links g.body
  again : gs.refresh = { gs with revision := gs.revision + 1 }

theorem size_body_le (h : fs.get? name = some f) : f.body.size ≤ fs.instructions.length := by
  have hmem : (name, f) ∈ fs.byName.entries := NameMap.mem_entries_iff_get?.2 h
  rw [← Program.length_instructions]
  exact (List.sublist_flatten_of_mem (List.mem_map_of_mem
    (f := fun e : String × Function ↦ e.2.body.instructions) hmem)).length_le

/-- After a refresh a function has its body numbered from some location on. -/
theorem get?_refresh (fs : Functions) (name : String) : ∃ location, fs.refresh.get? name =
    (fs.get? name).map fun f ↦ { f with body := f.body.numbered location } :=
  NameMap.get?_mapAccum numberFunction 0 name

/-- Going through the functions, the location numbers go on from where they began. -/
theorem map_locationNumber_mapAccumEntries (l : List (String × Function)) (location : Nat) :
    ((NameMap.mapAccumEntries numberFunction location l).2.flatMap
        fun e ↦ e.2.body.instructions).map (·.locationNumber) =
      (List.range' location (l.flatMap fun e ↦ e.2.body.instructions).length).map .ofNat := by
  induction l generalizing location with
  | nil => rfl
  | cons e l ih =>
    rw [NameMap.mapAccumEntries, List.flatMap_cons, List.map_append, ih, List.flatMap_cons,
      List.length_append, Program.length_instructions, ← List.range'_append_1, List.map_append]
    congr 1
    exact Program.map_locationNumber_numbered

theorem byName_refresh_map {β : Type} {g : Function → β}
    (h : ∀ f location, g { f with body := f.body.numbered location } = g f) :
    (fs.refresh.byName.map fun _ ↦ g) = fs.byName.map fun _ ↦ g :=
  NameMap.map_mapAccum (fun location _ f ↦ h f location) 0

/-- A second refresh has nothing to do. -/
theorem refresh_refresh : fs.refresh.refresh = { fs.refresh with revision := fs.revision + 2 } := by
  have hbyName : (fs.refresh.byName.mapAccum numberFunction 0).2 = fs.refresh.byName := by
    rw [refresh, NameMap.mapAccum_mapAccum]
    intro location _ f
    simp only [numberFunction, Program.numbered_numbered]
    rfl
  have hcalls : (fs.refresh.byName.map fun _ f ↦ f.body.callees) = fs.refresh.calls :=
    byName_refresh_map (g := fun f ↦ f.body.callees) fun _ _ ↦ Program.callees_numbered
  rw [refresh, hbyName, hcalls]
  rfl

theorem callees?_refresh :
    fs.refresh.callees? name = (fs.get? name).map fun f ↦ f.body.callees.names := by
  rw [callees?, refresh, NameMap.get?_map, Option.map_map]
  rfl

/-- A refresh numbers the instructions 0, 1, 2, … through all functions in the order of their names,
and the instructions that are jumped to 1, 2, … within each function; it collects the calls of every
function, whatever was there before. It changes nothing else, and a second refresh only counts
itself. -/
theorem refresh_exact (h : fs.instructions.length < 2 ^ 32) : fs.Refreshed fs.refresh where
  locationNumbers := by
    have hnumbers := map_locationNumber_mapAccumEntries fs.byName.entries 0
    rw [← List.range_eq_range'] at hnumbers
    calc fs.refresh.instructions.map (·.locationNumber.toNat)
        = (fs.refresh.instructions.map (·.locationNumber)).map UInt32.toNat := by
          rw [List.map_map]
          rfl
      _ = ((List.range fs.instructions.length).map UInt32.ofNat).map UInt32.toNat :=
          congrArg _ hnumbers
      _ = List.range fs.instructions.length :=
          map_toNat_map_ofNat fun k hk ↦ (List.mem_range.1 hk).trans h
  targetNumbers name g hg := by
    obtain ⟨location, hget⟩ := get?_refresh fs name
    rw [hg] at hget
    obtain ⟨f, hf, rfl⟩ := Option.map_eq_some_iff.1 hget.symm
    exact Program.targetsNumbered_numbered ((size_body_le hf).trans_lt h)
  callees? name f hf := by
    rw [callees?_refresh, hf]
    exact ⟨_, rfl, fun _ ↦ Program.mem_names_callees_iff⟩
  callees?_eq_none name hnone := by
    rw [callees?_refresh, hnone]
    rfl
  revision := rfl
  unnumbered := byName_refresh_map (g := fun f ↦ { f with body := f.body.unnumbered })
    fun f location ↦ by simp only [Program.unnumbered_numbered]
  linked name f a hf ha := by
    obtain ⟨location, hget⟩ := get?_refresh fs name
    rw [hf] at hget
    exact ⟨_, location, hget, ha.numbered location⟩
  again := refresh_refresh

/-- Two functions, and what was once known of a third one. In the second one the instruction with
the last id stands first, another one jumps to where nothing is left, and there are old numbers. -/
def scattered : Functions where
  byName := .ofList [
    ("walk", .ofBody (((Program.ofList [.skip, .call none "stop" [],
      { Instruction.goto ⟨4⟩ (.bool true) with targets := [⟨4⟩, ⟨0⟩], locationNumber := 9 },
      { Instruction.endFunction with targetNumber := some 7 }]).insertAt 0
        (.goto ⟨2⟩ (.var ⟨"done", .bool⟩))).erase ⟨0⟩)),
    ("stop", .ofBody (.ofList [.endFunction]))]
  calls := .ofList [("gone", .ofList [("walk", ())]), ("walk", .ofList [("gone", ())])]
  revision := 3

/-- The numbers follow the order and not the ids, and nothing is left of what was known before. -/
theorem refresh_exact_scattered : scattered.instructions.length < 2 ^ 32 ∧
    scattered.Refreshed scattered.refresh ∧
    (scattered.refresh.get? "walk").map (fun f ↦ f.body.entries.map fun e ↦
        (e.1.index, e.2.locationNumber, e.2.targetNumber)) =
      some [(4, 1, some 1), (1, 2, none), (2, 3, some 2), (3, 4, none)] ∧
    scattered.refresh.callees? "walk" = some ["stop"] ∧
    scattered.refresh.callees? "gone" = none := by
  have hfew : scattered.instructions.length < 2 ^ 32 := by decide +kernel
  exact ⟨hfew, refresh_exact hfew, by decide +kernel, by decide +kernel, by decide +kernel⟩

end Functions

end LoopInduction
