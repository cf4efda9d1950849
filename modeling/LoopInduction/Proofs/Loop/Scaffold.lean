import LoopInduction.Conversion.Loop
import LoopInduction.Proofs.Loop.Unwinding
import LoopInduction.Proofs.Program.Extension

/-!
# What scaffolding around a loop leaves

`Edit.scaffold` writes one block of instructions in front of the head, sends the jumps to the head
from outside the loop to the start of the block and makes the exit jump to the head alone
(`Edit.run_scaffold`). `Edit.assumeForward` writes one assumption behind the exit and sends the
condition there in place of the target by which it left the loop (`Edit.run_assumeForward`). Both
descriptions say where the new instructions stand and what every instruction is afterwards.

## Main definitions

* `scaffoldBlock` : the instructions in front of the head.
* `Scaffolded` : scaffolding was written in front of a loop.
* `Forwarded` : an assumption was written behind a loop.
-/

namespace LoopInduction

variable {p : Program} {head exit target id : InstrId} {body : List InstrId}
  {s : Setup} {l : Loop} {condition : LoopCondition}

/-! ### Passing over scaffolding -/

namespace Program

variable {q : Program} {k : Nat} {new : List InstrId}

theorem skipScaffold_eq_find? (p : Program) (id : InstrId) : p.skipScaffold id =
    (p.order.drop (p.position id)).find? fun id ↦ !(p.fetch id).isScaffold := by
  rw [skipScaffold, dropWhile_order]

theorem skipScaffold_of_isScaffold_eq_false (h : id ∈ p.order)
    (hid : (p.fetch id).isScaffold = false) : p.skipScaffold id = some id := by
  rw [skipScaffold_eq_find?, drop_position h, List.find?_cons_of_pos (by simp [hid])]

/-- Scaffolding leads where the instruction behind it leads. -/
theorem skipScaffold_of_next? {next : InstrId} (h : p.next? id = some next)
    (hid : (p.fetch id).isScaffold = true) : p.skipScaffold id = p.skipScaffold next := by
  obtain ⟨hmem, -, hpos⟩ := next?_eq_some_iff.1 h
  rw [skipScaffold_eq_find?, skipScaffold_eq_find?, drop_position hmem,
    List.find?_cons_of_neg (by simp [hid]), hpos]

theorem skipScaffold_eq_none (h : id ∈ p.order) (hnext : p.next? id = none)
    (hid : (p.fetch id).isScaffold = true) : p.skipScaffold id = none := by
  have hdrop : p.order.drop (p.position id + 1) = [] := by
    rw [List.drop_eq_nil_iff, (next?_eq_none_iff h).1 hnext]
  rw [skipScaffold_eq_find?, drop_position h, hdrop,
    List.find?_cons_of_neg (by simp [hid]), List.find?_nil]

namespace Splice

variable (h : Splice p q k new) (hnew : ∀ id ∈ new, (q.fetch id).isScaffold = true)
  (hold : ∀ id ∈ p.order, (q.fetch id).isScaffold = (p.fetch id).isScaffold)

include h hnew hold

/-- New scaffolding leads to what the old instructions from there on lead to. -/
theorem skipScaffold_new {n₁ n₂ : List InstrId} (hid : new = n₁ ++ id :: n₂) :
    q.skipScaffold id = (p.order.drop k).find? fun id ↦ !(p.fetch id).isScaffold := by
  have horder : q.order = (p.order.take k ++ n₁) ++ id :: (n₂ ++ p.order.drop k) := by
    rw [h.order, hid]
    simp only [List.append_assoc, List.cons_append]
  have hnone : (id :: n₂).find? (fun id ↦ !(q.fetch id).isScaffold) = none :=
    List.find?_eq_none.2 fun a ha ↦ by simp [hnew a (hid ▸ List.mem_append_right _ ha)]
  rw [skipScaffold_eq_find?, position_eq_length horder, horder, List.drop_left, ← List.cons_append,
    List.find?_append, hnone, Option.none_or]
  exact List.find?_congr fun a ha ↦ by rw [hold a (List.mem_of_mem_drop ha)]

/-- New scaffolding does not change where the old instructions lead. -/
theorem skipScaffold_old (hid : id ∈ p.order) : q.skipScaffold id = p.skipScaffold id := by
  have hfind : ∀ ids : List InstrId, (∀ a ∈ ids, a ∈ p.order) →
      ids.find? (fun id ↦ !(q.fetch id).isScaffold) =
        ids.find? fun id ↦ !(p.fetch id).isScaffold :=
    fun ids hids ↦ List.find?_congr fun a ha ↦ by rw [hold a (hids a ha)]
  have hnone : new.find? (fun id ↦ !(q.fetch id).isScaffold) = none :=
    List.find?_eq_none.2 fun a ha ↦ by simp [hnew a ha]
  have hle := h.le
  have hlen : (p.order.take k ++ new).length = k + new.length := by
    rw [List.length_append, List.length_take, Nat.min_eq_left hle]
  rw [skipScaffold_eq_find?, skipScaffold_eq_find?, h.position_old hid, h.order]
  by_cases hk : p.position id < k
  · have hsplit : p.order.drop (p.position id) =
        (p.order.take k).drop (p.position id) ++ p.order.drop k := by
      conv_lhs => rw [← List.take_append_drop k p.order]
      exact List.drop_append_of_le_length (by rw [List.length_take]; omega)
    rw [if_pos hk, List.append_assoc, List.drop_append_of_le_length (by
        rw [List.length_take]; omega), hsplit, List.find?_append, List.find?_append,
      List.find?_append, hnone, Option.none_or,
      hfind _ fun a ha ↦ List.mem_of_mem_take (List.mem_of_mem_drop ha),
      hfind _ fun a ↦ List.mem_of_mem_drop]
  · have hdrop : (p.order.take k ++ new ++ p.order.drop k).drop (p.position id + new.length) =
        p.order.drop (p.position id) := by
      rw [List.drop_append, List.drop_eq_nil_of_le (by omega), hlen, List.nil_append,
        List.drop_drop]
      congr 1
      omega
    rw [if_neg hk, hdrop, hfind _ fun a ↦ List.mem_of_mem_drop]

end Splice

end Program

/-! ### The two passes -/

/-- The block in front of a head `h`: an unconstrained value for every variable, and the assumption
that the condition holds. -/
def scaffoldBlock (s : Setup) (l : Loop) (h : Instruction) (guard : Expr) : List Instruction :=
  (l.vars.map fun v ↦ (Instruction.assign (.var v) (s.nondet v.type)).scaffoldAt h) ++
    [(Instruction.assume guard.normalized).scaffoldAt h]

section

variable {h i : Instruction} {guard : Expr} (hi : i ∈ scaffoldBlock s l h guard)

include hi

theorem mem_scaffoldBlock :
    i.origin = .scaffold ∧ i.targets = [] ∧ (i.kind = .assign ∨ i.kind = .assume) := by
  rcases List.mem_append.1 hi with hi | hi
  · obtain ⟨v, -, rfl⟩ := List.mem_map.1 hi
    simp
  · cases List.mem_singleton.1 hi
    simp

theorem targets_of_mem_scaffoldBlock : i.targets = [] :=
  (mem_scaffoldBlock hi).2.1

theorem isScaffold_of_mem_scaffoldBlock : i.isScaffold = true := by
  rw [Instruction.isScaffold, (mem_scaffoldBlock hi).1]
  rfl

theorem isAlwaysTaken_of_mem_scaffoldBlock : i.isAlwaysTaken = false := by
  rw [Instruction.isAlwaysTaken, Instruction.isGoto]
  rcases (mem_scaffoldBlock hi).2.2 with hkind | hkind <;> rw [hkind] <;> rfl

end

theorem Instruction.scaffoldAt_of_retained {i j new : Instruction} (h : Retained i j) :
    new.scaffoldAt j = new.scaffoldAt i := by
  rw [scaffoldAt, scaffoldAt, h.location_eq, h.function_eq]

/-- Where the head is the same up to its targets, the block is the same. -/
theorem scaffoldBlock_of_retained {i j : Instruction} {guard : Expr} (h : i.Retained j) :
    scaffoldBlock s l j guard = scaffoldBlock s l i guard := by
  simp only [scaffoldBlock, Instruction.scaffoldAt_of_retained h]

@[simp] theorem length_scaffoldBlock (h : Instruction) (guard : Expr) :
    (scaffoldBlock s l h guard).length = l.vars.length + 1 := by
  simp [scaffoldBlock]

/-- What an instruction is once the loop is entered through a block that begins at `start`. -/
def Program.entered (p : Program) (head exit start : InstrId) (body : List InstrId)
    (id : InstrId) : Instruction :=
  if id = exit then { p.fetch id with targets := [head] }
  else if id ∈ body then p.fetch id
  else (p.fetch id).redirect head start

/-- The block was put in front of the head of a loop with the body `body`, the loop is entered
through it, and the exit jumps to the head. -/
structure Scaffolded (s : Setup) (l : Loop) (guard : Expr) (body : List InstrId) (p q : Program) :
    Prop where
  splice : p.Splice q (p.position l.head) (p.freshIds (l.vars.length + 1))
  get?_old : ∀ id ∈ p.order, q.get? id = some (p.entered l.head l.exit p.fresh body id)
  get?_new : ∀ j, q.get? ⟨p.slots.size + j⟩ =
    (scaffoldBlock s l (p.fetch l.head) guard)[j]?

/-- An assumption was put behind the exit of a loop, the branch goes there instead of to `target`,
and the exit jumps to the head. -/
structure Forwarded (s : Setup) (l : Loop) (condition : LoopCondition) (target : InstrId)
    (p q : Program) : Prop where
  splice : p.Splice q (p.position l.exit + 1) [p.fresh]
  get?_old : ∀ id ∈ p.order, q.get? id = some
    (if id = l.exit then { p.fetch id with targets := [l.head] }
    else if id = condition.branch then (p.fetch id).redirect target p.fresh
    else p.fetch id)
  get?_new : q.get? p.fresh = some ((Instruction.assume
    (s.builder.negate condition.guard.normalized)).scaffoldAt (p.fetch l.exit))

namespace Edit

/-! ### Single edits -/

theorem run_havoc (h : head ∈ p.order) (vars : List Variable) (nondet : NondetSource) :
    (havoc head vars nondet).run p = .ok (p.freshIds vars.length) (p.insertAllAt (p.position head)
      (vars.map fun v ↦ (Instruction.assign (.var v) (nondet v.type)).scaffoldAt
        (p.fetch head))) := by
  rw [havoc, EStateM.run_bind, run_fetch (Program.get?_eq_some_fetch h)]
  simp only
  rw [run_insertAllBefore h, List.length_map]

theorem run_assumeBefore (h : head ∈ p.order) (guard : Expr) :
    (assumeBefore head guard).run p = .ok p.fresh (p.insertAt (p.position head)
      ((Instruction.assume guard.normalized).scaffoldAt (p.fetch head))) := by
  rw [assumeBefore, EStateM.run_bind, run_fetch (Program.get?_eq_some_fetch h)]
  exact run_insertBefore h _

theorem run_assumeAfter (h : exit ∈ p.order) (guard : Expr) (builder : GuardBuilder) :
    (assumeAfter exit guard builder).run p = .ok p.fresh (p.insertAt (p.position exit + 1)
      ((Instruction.assume (builder.negate guard.normalized)).scaffoldAt (p.fetch exit))) := by
  rw [assumeAfter, EStateM.run_bind, run_fetch (Program.get?_eq_some_fetch h)]
  exact run_insertAfter h _

theorem run_redirectEntry (hrange : p.range head exit = .ok body) (start : InstrId) :
    ∃ n, (redirectEntry head exit start).run p = .ok n
      (p.redirectTargets head start fun id ↦ id ∉ body ∧ id ≠ exit).1 := by
  rw [redirectEntry, EStateM.run_bind, run_ask_ok hrange]
  exact ⟨_, rfl⟩

/-- The exit has to be a jump. -/
theorem run_closeLoop (h : exit ∈ p.order) : (closeLoop head exit).run p =
    if (p.fetch exit).isGoto then .ok () (p.update exit ({ · with targets := [head] }))
    else .error (.exitIsNoJump exit (p.fetch exit).kind head) p := by
  rw [closeLoop, EStateM.run_bind, run_fetch (Program.get?_eq_some_fetch h)]
  simp only
  cases (p.fetch exit).isGoto <;> rfl

theorem run_redirect (h : id ∈ p.order) (old new : InstrId) :
    (redirect id old new).run p = .ok (decide (old ∈ (p.fetch id).targets))
      (p.update id (·.redirect old new)) := by
  rw [redirect, EStateM.run_bind, run_fetch (Program.get?_eq_some_fetch h)]
  rfl

end Edit

/-! ### The scaffolding in front of a loop -/

namespace Program

/-- The program with the block in front of the head, no jump being redirected yet. -/
def withBlock (p : Program) (s : Setup) (l : Loop) (guard : Expr) : Program :=
  p.insertAllAt (p.position l.head) (scaffoldBlock s l (p.fetch l.head) guard)

/-- The program with the block in front of the head, the jumps to the head from outside the loop
going to the block. -/
def withEntry (p : Program) (s : Setup) (l : Loop) (guard : Expr) (body : List InstrId) : Program :=
  ((p.withBlock s l guard).redirectTargets l.head p.fresh fun id ↦ id ∉ body ∧ id ≠ l.exit).1

variable {guard : Expr}

theorem splice_withBlock (h : l.head ∈ p.order) :
    p.Splice (p.withBlock s l guard) (p.position l.head) (p.freshIds (l.vars.length + 1)) := by
  have hsplice := splice_insertAllAt (scaffoldBlock s l (p.fetch l.head) guard)
    (Nat.le_of_lt (position_lt_iff.2 h))
  rwa [length_scaffoldBlock] at hsplice

theorem get?_withBlock (h : id ∈ p.order) : (p.withBlock s l guard).get? id = p.get? id :=
  get?_insertAllAt_of_mem h

theorem fetch_withBlock (h : id ∈ p.order) : (p.withBlock s l guard).fetch id = p.fetch id := by
  rw [fetch, get?_withBlock h, fetch]

theorem get?_withEntry (h : id ∈ p.order) : (p.withEntry s l guard body).get? id = some
    (if id ∉ body ∧ id ≠ l.exit then (p.fetch id).redirect l.head p.fresh else p.fetch id) := by
  rw [withEntry, get?_redirectTargets, get?_withBlock h, get?_eq_some_fetch h, Option.map_some]
  simp only [decide_eq_true_eq]

theorem fetch_exit_withEntry (h : l.exit ∈ p.order) :
    (p.withEntry s l guard body).fetch l.exit = p.fetch l.exit := by
  rw [fetch_eq (get?_withEntry h), if_neg (by simp)]

theorem exists_get?_withBlock {a : InstrId} (h : a ∈ p.freshIds (l.vars.length + 1)) :
    ∃ i ∈ scaffoldBlock s l (p.fetch l.head) guard, (p.withBlock s l guard).get? a = some i := by
  obtain ⟨j, hj, rfl⟩ := List.mem_map.1 h
  rw [List.mem_range] at hj
  have hj' : j < (scaffoldBlock s l (p.fetch l.head) guard).length := by
    rwa [length_scaffoldBlock]
  exact ⟨_, List.getElem_mem hj', by rw [withBlock, get?_insertAllAt_fresh,
    List.getElem?_eq_getElem hj']⟩

/-- From the start of the block on the head is the first instruction that is no scaffolding. -/
theorem reachedHead_withBlock (h : l.head ∈ p.order)
    (hhead : (p.fetch l.head).isScaffold = false) :
    (p.withBlock s l guard).reachedHead p.fresh l.head = .ok l.head := by
  have hsplice : p.Splice (p.withBlock s l guard) _ _ := splice_withBlock h
  have hnew : ∀ a ∈ p.freshIds (l.vars.length + 1),
      ((p.withBlock s l guard).fetch a).isScaffold = true := by
    intro a ha
    obtain ⟨i, hi, hget⟩ : ∃ i ∈ scaffoldBlock s l (p.fetch l.head) guard,
        (p.withBlock s l guard).get? a = some i := exists_get?_withBlock ha
    rw [fetch_eq hget]
    exact isScaffold_of_mem_scaffoldBlock hi
  have hstart : p.freshIds (l.vars.length + 1) =
      [] ++ p.fresh :: (p.freshIds (l.vars.length + 1)).tail :=
    List.eq_cons_of_mem_head? (head?_freshIds _)
  have hskip : (p.withBlock s l guard).skipScaffold p.fresh = some l.head := by
    rw [hsplice.skipScaffold_new hnew (fun a ha ↦ by rw [fetch_withBlock ha]) hstart,
      drop_position h, List.find?_cons_of_pos (by rw [hhead]; rfl)]
  rw [reachedHead, hskip]
  exact if_pos rfl

end Program

namespace Edit

/-- Up to the last step scaffolding a loop fails only if the block does not lead to the head. -/
theorem run_scaffold_eq (s : Setup) (condition : LoopCondition)
    (hrange : p.range l.head l.exit = .ok body) : (scaffold s l condition).run p =
      match (p.withBlock s l condition.guard).reachedHead p.fresh l.head with
      | .ok _ => (closeLoop l.head l.exit).run (p.withEntry s l condition.guard body)
      | .error e => .error e (p.withBlock s l condition.guard) := by
  obtain ⟨hmem, -, -⟩ := Program.range_eq_ok hrange
  let assignments := l.vars.map fun v ↦
    (Instruction.assign (.var v) (s.nondet v.type)).scaffoldAt (p.fetch l.head)
  let r := p.insertAllAt (p.position l.head) assignments
  have hsplice : p.Splice r (p.position l.head) (p.freshIds l.vars.length) := by
    have := Program.splice_insertAllAt assignments (Nat.le_of_lt (Program.position_lt_iff.2 hmem))
    rwa [List.length_map] at this
  have hfetch : r.fetch l.head = p.fetch l.head := by
    rw [Program.fetch, Program.get?_insertAllAt_of_mem hmem, Program.fetch]
  have hblock : r.insertAt (r.position l.head)
      ((Instruction.assume condition.guard.normalized).scaffoldAt (r.fetch l.head)) =
        p.withBlock s l condition.guard := by
    rw [hsplice.position_old hmem, if_neg (Nat.lt_irrefl _), Program.length_freshIds, hfetch,
      Program.withBlock, scaffoldBlock, Program.insertAllAt_append, List.length_map]
    rfl
  have hstart : (p.freshIds l.vars.length).headD r.fresh = p.fresh := by
    cases hn : l.vars.length with
    | zero =>
      have hnil : assignments = [] := by simpa [assignments] using hn
      simp [Program.freshIds, r, hnil, Program.insertAllAt]
    | succ n => rw [List.headD_eq_head?_getD, Program.head?_freshIds, Option.getD_some]
  have hrange' : (p.withBlock s l condition.guard).range l.head l.exit = .ok body := by
    refine (Program.splice_withBlock hmem).range hrange fun y hy hpos ↦ ?_
    have := Program.position_lt_of_mem_tail hrange hy
    omega
  obtain ⟨n, hentry⟩ := run_redirectEntry hrange' p.fresh
  rw [scaffold, EStateM.run_bind, run_havoc hmem]
  simp only
  rw [EStateM.run_bind, run_assumeBefore (hsplice.mem_old hmem)]
  simp only
  rw [hblock, hstart, EStateM.run_bind, run_discard, run_ask]
  cases (p.withBlock s l condition.guard).reachedHead p.fresh l.head with
  | error e => rfl
  | ok reached =>
    simp only
    rw [EStateM.run_bind, run_discard, hentry]
    simp only [adjustEdges, bind_pure_unit]
    rfl

/-- What is left once the exit has been closed too. -/
theorem scaffolded_withEntry {guard : Expr} (hrange : p.range l.head l.exit = .ok body) :
    Scaffolded s l guard body p
      ((p.withEntry s l guard body).update l.exit ({ · with targets := [l.head] })) := by
  obtain ⟨hmem, hexit, -⟩ := Program.range_eq_ok hrange
  have hsplice : p.Splice (p.withBlock s l guard) _ _ := Program.splice_withBlock hmem
  refine ⟨⟨hsplice.le, hsplice.order⟩, ?_, ?_⟩
  · intro id hid
    rw [Program.get?_update, Program.get?_withEntry hid, Program.entered]
    by_cases he : id = l.exit
    · subst he
      simp
    · by_cases hb : id ∈ body <;> simp [he, hb]
  · intro j
    have hne : (⟨p.slots.size + j⟩ : InstrId) ≠ l.exit := by
      intro e
      have hlt : p.slots.size + j < p.slots.size := Program.index_lt_of_mem (e ▸ hexit)
      omega
    rw [Program.get?_update, if_neg hne, Program.withEntry, Program.get?_redirectTargets,
      Program.withBlock, Program.get?_insertAllAt_fresh]
    cases hj : (scaffoldBlock s l (p.fetch l.head) guard)[j]? with
    | none => rfl
    | some i =>
      have hi := targets_of_mem_scaffoldBlock (List.mem_of_getElem? hj)
      rw [Option.map_some, Instruction.redirect_of_notMem (by simp [hi]), ite_self]

theorem run_closeLoop_withEntry {guard : Expr} (hrange : p.range l.head l.exit = .ok body) :
    (closeLoop l.head l.exit).run (p.withEntry s l guard body) =
      if (p.fetch l.exit).isGoto then
        .ok () ((p.withEntry s l guard body).update l.exit ({ · with targets := [l.head] }))
      else .error (.exitIsNoJump l.exit (p.fetch l.exit).kind l.head)
        (p.withEntry s l guard body) := by
  obtain ⟨hmem, hexit, -⟩ := Program.range_eq_ok hrange
  have hsplice : p.Splice (p.withBlock s l guard) _ _ := Program.splice_withBlock hmem
  have hexit' : l.exit ∈ (p.withEntry s l guard body).order := hsplice.mem_old hexit
  rw [run_closeLoop hexit', Program.fetch_exit_withEntry hexit]

/-- Scaffolding a loop whose exit is a jump succeeds. -/
theorem run_scaffold (s : Setup) (condition : LoopCondition)
    (hrange : p.range l.head l.exit = .ok body)
    (hhead : (p.fetch l.head).isScaffold = false) (hgoto : (p.fetch l.exit).isGoto = true) :
    ∃ q, (scaffold s l condition).run p = .ok () q ∧
      Scaffolded s l condition.guard body p q := by
  refine ⟨_, ?_, scaffolded_withEntry hrange⟩
  rw [run_scaffold_eq s condition hrange,
    Program.reachedHead_withBlock (Program.range_eq_ok hrange).1 hhead,
    run_closeLoop_withEntry hrange, if_pos hgoto]

theorem run_scaffold_error (s : Setup) (condition : LoopCondition)
    (hrange : p.range l.head l.exit = .ok body)
    (hhead : (p.fetch l.head).isScaffold = false) (hgoto : (p.fetch l.exit).isGoto = false) :
    ∃ e q, (scaffold s l condition).run p = .error e q := by
  refine ⟨.exitIsNoJump l.exit (p.fetch l.exit).kind l.head, p.withEntry s l condition.guard body,
    ?_⟩
  rw [run_scaffold_eq s condition hrange,
    Program.reachedHead_withBlock (Program.range_eq_ok hrange).1 hhead,
    run_closeLoop_withEntry hrange, if_neg (by simp [hgoto])]

/-- Wherever scaffolding a loop succeeds, the exit is a jump and the loop is scaffolded. -/
theorem scaffolded_of_run {q : Program} (hrange : p.range l.head l.exit = .ok body)
    (hrun : (scaffold s l condition).run p = .ok () q) :
    (p.fetch l.exit).isGoto = true ∧ Scaffolded s l condition.guard body p q := by
  rw [run_scaffold_eq s condition hrange] at hrun
  cases hreached : (p.withBlock s l condition.guard).reachedHead p.fresh l.head with
  | error e =>
    rw [hreached] at hrun
    cases hrun
  | ok reached =>
    rw [hreached, run_closeLoop_withEntry hrange] at hrun
    cases hgoto : (p.fetch l.exit).isGoto with
    | false =>
      rw [hgoto] at hrun
      cases hrun
    | true =>
      rw [hgoto] at hrun
      cases hrun
      exact ⟨rfl, scaffolded_withEntry hrange⟩

/-! ### The assumption behind a loop -/

/-- The program with the assumption behind the exit and the exit closed. -/
def withAssumption (p : Program) (l : Loop) (i : Instruction) : Program :=
  (p.insertAt (p.position l.exit + 1) i).update l.exit ({ · with targets := [l.head] })

theorem get?_withAssumption (h : id ∈ p.order) (i : Instruction) :
    (withAssumption p l i).get? id = some
      (if id = l.exit then { p.fetch id with targets := [l.head] } else p.fetch id) := by
  have hne : id ≠ p.fresh := fun e ↦ p.fresh_notMem_order (e ▸ h)
  rw [withAssumption, Program.get?_update, Program.get?_insertAt, if_neg hne,
    Program.get?_eq_some_fetch h]
  split <;> rfl

theorem splice_withAssumption (h : l.exit ∈ p.order) (i : Instruction) :
    p.Splice (withAssumption p l i) (p.position l.exit + 1) [p.fresh] := by
  have hsplice := Program.splice_insertAt (i := i) (Program.position_lt_iff.2 h)
  exact ⟨hsplice.le, hsplice.order⟩

/-- Of writing the assumption only the last step, making the branch leave through it, can fail. -/
theorem run_assumeForward_eq (hexit : l.exit ∈ p.order)
    (hgoto : (p.fetch l.exit).isGoto = true) :
    (assumeForward s l condition).run p =
      match (leaveThrough l.head l.exit condition p.fresh).run (withAssumption p l
        ((Instruction.assume (s.builder.negate condition.guard.normalized)).scaffoldAt
          (p.fetch l.exit))) with
      | .ok _ q => .ok p.fresh q
      | .error e q => .error e q := by
  generalize hi : (Instruction.assume (s.builder.negate condition.guard.normalized)).scaffoldAt
    (p.fetch l.exit) = i
  have hsplice : p.Splice (p.insertAt (p.position l.exit + 1) i) _ _ :=
    Program.splice_insertAt (Program.position_lt_iff.2 hexit)
  have hne : l.exit ≠ p.fresh := fun e ↦ p.fresh_notMem_order (e ▸ hexit)
  have hfetch : (p.insertAt (p.position l.exit + 1) i).fetch l.exit = p.fetch l.exit := by
    rw [Program.fetch, Program.get?_insertAt, if_neg hne, Program.fetch]
  rw [assumeForward, EStateM.run_bind, run_assumeAfter hexit, hi]
  simp only [adjustEdges, EStateM.run_bind]
  rw [run_closeLoop (hsplice.mem_old hexit), hfetch, if_pos hgoto, ← withAssumption]
  simp only
  cases (leaveThrough l.head l.exit condition p.fresh).run (withAssumption p l i) <;> rfl

/-- Behind the exit stands the assumption, so all depends on the target of the branch. -/
theorem next?_withAssumption (hexit : l.exit ∈ p.order) (i : Instruction) :
    (withAssumption p l i).next? l.exit = some p.fresh := by
  rw [(splice_withAssumption hexit i).next?_old hexit, if_pos rfl]
  rfl

/-- With an assumption behind the exit the branch only has to have the target still. -/
theorem run_leaveThrough_withAssumption (hexit : l.exit ∈ p.order)
    (hbranch : condition.branch ∈ p.order) (hne : condition.branch ≠ l.exit)
    (htarget : condition.exitTarget = some target) (i : Instruction) :
    (leaveThrough l.head l.exit condition p.fresh).run (withAssumption p l i) =
      if target ∈ (p.fetch condition.branch).targets then
        .ok () ((withAssumption p l i).update condition.branch (·.redirect target p.fresh))
      else .error (.exitTargetLost condition.branch target l.head)
        ((withAssumption p l i).update condition.branch (·.redirect target p.fresh)) := by
  have hsplice := splice_withAssumption hexit i
  have hfetch : (withAssumption p l i).fetch condition.branch = p.fetch condition.branch := by
    rw [Program.fetch_eq (get?_withAssumption hbranch i), if_neg hne]
  rw [leaveThrough, EStateM.run_bind, EStateM.run_get]
  simp only [next?_withAssumption hexit, htarget, ne_eq, not_true_eq_false, if_false,
    EStateM.run_bind]
  rw [run_redirect (hsplice.mem_old hbranch), hfetch]
  by_cases hmem : target ∈ (p.fetch condition.branch).targets
  · rw [decide_eq_true hmem, if_pos hmem]
    rfl
  · rw [decide_eq_false hmem, if_neg hmem]
    rfl

/-- Leaving a loop through an assumption behind it succeeds if the branch has a target outside. -/
theorem run_assumeForward (s : Setup) (hexit : l.exit ∈ p.order)
    (hgoto : (p.fetch l.exit).isGoto = true)
    (hbranch : condition.branch ∈ p.order) (hne : condition.branch ≠ l.exit)
    (htarget : condition.exitTarget = some target)
    (hmem : target ∈ (p.fetch condition.branch).targets) :
    ∃ q, (assumeForward s l condition).run p = .ok p.fresh q ∧
      Forwarded s l condition target p q := by
  rw [run_assumeForward_eq hexit hgoto]
  generalize hi : (Instruction.assume (s.builder.negate condition.guard.normalized)).scaffoldAt
    (p.fetch l.exit) = i
  have hsplice := splice_withAssumption hexit i
  rw [run_leaveThrough_withAssumption hexit hbranch hne htarget, if_pos hmem]
  refine ⟨_, rfl, ⟨hsplice.le, hsplice.order⟩, ?_, ?_⟩
  · intro id hid
    rw [Program.get?_update, get?_withAssumption hid]
    by_cases he : id = l.exit
    · subst he
      rw [if_neg (Ne.symm hne), if_pos rfl, if_pos rfl]
    · by_cases hb : id = condition.branch <;> simp [he, hb, hne]
  · have hbranch' : p.fresh ≠ condition.branch := fun e ↦ p.fresh_notMem_order (e ▸ hbranch)
    have hexit' : p.fresh ≠ l.exit := fun e ↦ p.fresh_notMem_order (e ▸ hexit)
    rw [Program.get?_update, if_neg hbranch', withAssumption, Program.get?_update, if_neg hexit',
      Program.get?_insertAt, if_pos rfl, hi]

theorem run_assumeForward_error (s : Setup) (hexit : l.exit ∈ p.order)
    (hgoto : (p.fetch l.exit).isGoto = true) (htarget : condition.exitTarget = none) :
    ∃ e q, (assumeForward s l condition).run p = .error e q := by
  rw [run_assumeForward_eq hexit hgoto, leaveThrough, EStateM.run_bind, EStateM.run_get]
  simp only [next?_withAssumption hexit, htarget, ne_eq, not_true_eq_false, if_false]
  exact ⟨_, _, rfl⟩

/-- Wherever leaving a loop through an assumption succeeds, the branch had a target outside. -/
theorem forwarded_of_run {a : InstrId} {q : Program} (hexit : l.exit ∈ p.order)
    (hgoto : (p.fetch l.exit).isGoto = true)
    (hbranch : condition.branch ∈ p.order) (hne : condition.branch ≠ l.exit)
    (hrun : (assumeForward s l condition).run p = .ok a q) :
    a = p.fresh ∧ ∃ target, condition.exitTarget = some target ∧
      Forwarded s l condition target p q := by
  cases htarget : condition.exitTarget with
  | none =>
    obtain ⟨e, r, herror⟩ := run_assumeForward_error s hexit hgoto htarget
    rw [hrun] at herror
    cases herror
  | some target =>
    by_cases hmem : target ∈ (p.fetch condition.branch).targets
    · obtain ⟨r, hrun', h⟩ := run_assumeForward s hexit hgoto hbranch hne htarget hmem
      cases hrun.symm.trans hrun'
      exact ⟨rfl, target, rfl, h⟩
    · rw [run_assumeForward_eq hexit hgoto,
        run_leaveThrough_withAssumption hexit hbranch hne htarget, if_neg hmem] at hrun
      cases hrun

end Edit

end LoopInduction
