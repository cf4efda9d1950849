import LoopInduction.Fault

/-!
# Programs

A program is the body of one function. Instructions live in slots that are never used twice: an
`InstrId` is the number of a slot, and removing an instruction leaves its slot empty for good.
Which instruction comes after which is a list of ids, apart from the slots; the two agree by the
invariant of `Program`.

* `Program.get?`, `Program.next?`, `Program.prev?` and `Program.range` look at a program.
* `Program.insertAt`, `Program.erase` and `Program.map` are the changes that all others are made of.
* `Program.entries` lists the instructions with their ids in program order.
-/

namespace LoopInduction

/-- The instructions of one function, with their order. -/
structure Program where
  slots : Array (Option Instruction)
  order : List InstrId
  order_nodup : order.Nodup
  mem_order_iff : ∀ id, id ∈ order ↔ (slots[id.index]?.join).isSome
  deriving DecidableEq

namespace Program

/-- The program without instructions. -/
def empty : Program where
  slots := #[]
  order := []
  order_nodup := List.nodup_nil
  mem_order_iff := by simp

instance : Inhabited Program := ⟨empty⟩

variable (p : Program)

/-! ### Looking at a program -/

/-- The instruction with an id, if the program has it. -/
def get? (id : InstrId) : Option Instruction :=
  p.slots[id.index]?.join

/-- Whether the program has an instruction with this id. -/
def contains (id : InstrId) : Bool :=
  (p.get? id).isSome

theorem mem_order_iff_contains {p : Program} {id : InstrId} : id ∈ p.order ↔ p.contains id :=
  p.mem_order_iff id

/-- The content of a slot; an empty one is as good as a skip. -/
def fetch (id : InstrId) : Instruction :=
  (p.get? id).getD .skip

/-- The instructions with their ids, in program order. -/
def entries : List (InstrId × Instruction) :=
  p.order.map fun id ↦ (id, p.fetch id)

/-- The number of instructions. -/
def size : Nat :=
  p.order.length

/-- Whether there is no instruction. -/
def isEmpty : Bool :=
  p.order.isEmpty

/-- The first instruction. -/
def first? : Option InstrId :=
  p.order.head?

/-- The last instruction. -/
def last? : Option InstrId :=
  p.order.getLast?

/-- The instructions after one, in order; none where the program does not have it. -/
def after (id : InstrId) : List InstrId :=
  (p.order.dropWhile (· ≠ id)).tail

/-- The instruction right after one. -/
def next? (id : InstrId) : Option InstrId :=
  (p.after id).head?

/-- The instruction right before one. -/
def prev? (id : InstrId) : Option InstrId :=
  if p.contains id then (p.order.takeWhile (· ≠ id)).getLast? else none

/-- The id that the next new instruction gets. -/
def fresh : InstrId :=
  ⟨p.slots.size⟩

/-- The instruction with an id; a fault where the program does not have it. -/
def instruction (id : InstrId) : Except Fault Instruction :=
  match p.get? id with
  | some i => .ok i
  | none => .error (.notInProgram id)

/-- The instructions from `first` up to, and without, `last`. -/
def range (first last : InstrId) : Except Fault (List InstrId) :=
  if !p.contains first then .error (.notInProgram first)
  else if !p.contains last then .error (.notInProgram last)
  else if last ∈ p.order.dropWhile (· ≠ first) then
    .ok ((p.order.dropWhile (· ≠ first)).takeWhile (· ≠ last))
  else .error (.doesNotFollow last first)

/-! ### Changing a program -/

theorem fresh_notMem_order : p.fresh ∉ p.order := by
  simp [p.mem_order_iff, fresh]

/-- Puts a new instruction in front of the one at a position, or at the end. -/
def insertAt (position : Nat) (i : Instruction) : Program where
  slots := p.slots.push (some i)
  order := p.order.take position ++ p.fresh :: p.order.drop position
  order_nodup := by
    have hp : (p.order.take position ++ p.order.drop position).Nodup := by
      rw [List.take_append_drop]; exact p.order_nodup
    have hf := p.fresh_notMem_order
    rw [← List.take_append_drop position p.order] at hf
    rw [List.perm_middle.nodup_iff, List.nodup_cons]
    exact ⟨hf, hp⟩
  mem_order_iff id := by
    have hp := p.mem_order_iff id
    rw [← List.take_append_drop position p.order, List.mem_append] at hp
    rw [List.mem_append, List.mem_cons, or_left_comm, hp, Array.getElem?_push]
    by_cases hid : id.index = p.slots.size
    · simp [hid, fresh, InstrId.ext_iff]
    · simp [hid, fresh, InstrId.ext_iff]

/-- Takes an instruction out and leaves its slot empty. -/
def erase (id : InstrId) : Program where
  slots := p.slots.setIfInBounds id.index none
  order := p.order.filter (· ≠ id)
  order_nodup := p.order_nodup.filter _
  mem_order_iff id' := by
    rw [List.mem_filter, p.mem_order_iff id', Array.getElem?_setIfInBounds]
    by_cases h : id.index = id'.index
    · have : id' = id := by cases id; cases id'; simp_all
      subst this
      simp only [ne_eq, not_true_eq_false, decide_false, Bool.false_eq_true, and_false, if_true]
      split <;> simp
    · have : id' ≠ id := fun hc ↦ h (by rw [hc])
      simp [h, this]

/-- Changes every instruction in its place. -/
def map (f : InstrId → Instruction → Instruction) : Program where
  slots := p.slots.mapIdx fun k i ↦ i.map (f ⟨k⟩)
  order := p.order
  order_nodup := p.order_nodup
  mem_order_iff id := by
    rw [p.mem_order_iff id, Array.getElem?_mapIdx]
    cases p.slots[id.index]? with
    | none => simp
    | some o => cases o <;> simp

/-- Changes one instruction in its place. -/
def update (id : InstrId) (f : Instruction → Instruction) : Program :=
  p.map fun id' i ↦ if id' = id then f i else i

/-- Puts a new instruction at the end. -/
def push (i : Instruction) : Program :=
  p.insertAt p.size i

/-- The program that consists of the given instructions, with the ids 0, 1, 2, … in order. -/
def ofList (is : List Instruction) : Program :=
  is.foldl push empty

end Program

end LoopInduction
