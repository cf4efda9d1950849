import LoopInduction.Proofs.Conversion.ControlFlow
import LoopInduction.Proofs.Conversion.Gate
import Mathlib.Data.List.Chain
import Mathlib.Data.List.Induction

/-!
# Loops are entered through their scaffolding

After a run the block in front of a converted loop is the only way into its head from outside
(`Functions.run_enteredThrough`). It writes an unconstrained value to every variable of the loop and
then assumes the normalized condition. Control comes to the head from the end of the block or from
inside the loop, through the block from its start only, and from inside the loop never to the block.
A path that comes to the head from outside ends with the whole block, or begins within the block.
The invariant of a run is that every loop dealt with so far has a gate.

## Main definitions

* `Instruction.Scaffolds` : an instruction is scaffolding that stands where another one stands.
* `Program.IsEntryBlock` : what the block in front of a loop does.
* `Program.EnteredThrough` : a loop is entered through a block only.
* `Settled` : what a run keeps of a loop that it has dealt with.

## Main results

* `Functions.run_enteredThrough` : what a run leaves around a converted loop.
-/

namespace LoopInduction

namespace Instruction

/-- The instruction is scaffolding that jumps nowhere, and it stands where `h` stands. -/
structure Scaffolds (i h : Instruction) (kind : Kind) (guard : Expr) (code : Code) : Prop where
  kind_eq : i.kind = kind
  guard_eq : i.guard = guard
  code_eq : i.code = code
  targets_eq : i.targets = []
  origin_eq : i.origin = .scaffold
  location_eq : i.location = h.location
  function_eq : i.function = h.function

theorem scaffolds_assign (h : Instruction) (lhs rhs : Expr) :
    ((assign lhs rhs).scaffoldAt h).Scaffolds h .assign (.bool true) (.assign lhs rhs) := by
  constructor <;> simp

theorem scaffolds_assume (h : Instruction) (condition : Expr) :
    ((assume condition).scaffoldAt h).Scaffolds h .assume condition .nil := by
  constructor <;> simp

end Instruction

namespace Program

variable {p q : Program} {l : Loop} {ids path : List InstrId} {a b c t : InstrId}

/-- The block `ids` assigns an unconstrained value of its type to every variable of the loop, in
their order, and then assumes the normalized guard. It stands where the head `h` stands. -/
def IsEntryBlock (p : Program) (s : Setup) (l : Loop) (h : Instruction) (guard : Expr)
    (ids : List InstrId) : Prop :=
  ∃ assignments assumption, ids = assignments ++ [assumption] ∧
    List.Forall₂ (fun (v : Variable) a ↦ (p.fetch a).Scaffolds h .assign (.bool true)
      (.assign (.var v) (s.nondet v.type))) l.vars assignments ∧
    (p.fetch assumption).Scaffolds h .assume guard.normalized .nil

/-- The block `ids` stands in front of the loop, and the loop is entered through all of it. -/
structure EnteredThrough (p : Program) (l : Loop) (ids : List InstrId) : Prop where
  isInfix : ids ++ [l.head] <:+: p.order
  edge_head : ∀ a, ids.getLast? = some a → p.Edge a l.head
  /-- Control comes to the head from the end of the block or from inside. -/
  of_edge_head : ∀ a, p.Edge a l.head → ids.getLast? = some a ∨ p.Inside l a
  /-- Control comes to an instruction of the block that is not the first from the one before it. -/
  edge_iff : ∀ a b c, [b, c] <:+: ids → (p.Edge a c ↔ a = b)
  not_edge_of_inside : ∀ a, p.Inside l a → ∀ b ∈ ids, ¬ p.Edge a b
  /-- A path to the head from outside ends with the whole block, or begins within the block. -/
  suffix_of_path : ∀ path : List InstrId, (path ++ [l.head]).IsChain p.Edge →
    (∀ a, path.getLast? = some a → ¬ p.Inside l a) → ids <:+ path ∨ path <:+ ids
  targets_exit : (p.fetch l.exit).targets = [l.head]

/-- If control comes to each instruction of a block from the one before it only, a path to its end
runs through the block, or begins within it. -/
theorem suffix_of_isChain (hpred : ∀ a b c, [b, c] <:+: ids → p.Edge a c → a = b)
    (hpath : path.IsChain p.Edge)
    (hlast : ∀ a, path.getLast? = some a → ids.getLast? = some a) :
    ids <:+ path ∨ path <:+ ids := by
  induction ids using List.reverseRecOn generalizing path with
  | nil => exact .inl List.nil_suffix
  | append_singleton ids c ih =>
    rcases List.eq_nil_or_concat path with rfl | ⟨path, a, rfl⟩
    · exact .inr List.nil_suffix
    · rw [List.concat_eq_append] at hpath hlast ⊢
      obtain rfl : c = a := by simpa using hlast a (by simp)
      rcases List.eq_nil_or_concat ids with rfl | ⟨ids, b, rfl⟩
      · exact .inl (List.suffix_append path [c])
      · rw [List.concat_eq_append] at hpred ih ⊢
        have hb : ∀ x, path.getLast? = some x → (ids ++ [b]).getLast? = some x := by
          intro x hx
          have hedge : p.Edge x c := (List.isChain_append.1 hpath).2.2 x hx c rfl
          rw [hpred x b c ⟨ids, [], by simp⟩ hedge]
          exact List.getLast?_concat
        have hsub : ids ++ [b] <:+: (ids ++ [b]) ++ [c] := List.infix_append' [] _ [c]
        rcases ih (fun x y z hyz ↦ hpred x y z (hyz.trans hsub)) hpath.left_of_append hb with
          ⟨u, hu⟩ | ⟨u, hu⟩
        · exact .inl ⟨u, by rw [← hu, List.append_assoc u]⟩
        · exact .inr ⟨u, by rw [← hu, List.append_assoc u]⟩

end Program

open Program

variable {p q : Program} {s : Setup} {l : Loop} {h : Instruction} {guard : Expr}
  {ids : List InstrId} {name : String} {discovery : Discovery}

namespace Gated

variable (hg : Gated s l h guard ids p)

include hg

/-- What falls to the head or into the block comes from the block, or falls to its start. -/
theorem next?_iff {b c : InstrId} (hbc : [b, c] <:+: ids ++ [l.head]) {a : InstrId} :
    p.next? a = some c ↔ a = b := by
  have hnext := next?_of_isInfix (hbc.trans hg.isInfix)
  constructor
  · intro ha
    exact eq_of_next? ha hnext
  · rintro rfl
    exact hnext

theorem edge_of_isInfix {b c : InstrId} (hb : b ∈ ids) (hbc : [b, c] <:+: ids ++ [l.head]) :
    p.Edge b c :=
  .inr ⟨hg.isAlwaysTaken hb, (hg.next?_iff hbc).2 rfl⟩

/-- The last instruction of the block stands right in front of the head. -/
theorem isInfix_of_getLast? {a : InstrId} (ha : ids.getLast? = some a) :
    a ∈ ids ∧ [a, l.head] <:+: ids ++ [l.head] := by
  obtain ⟨cs, rfl⟩ := List.getLast?_eq_some_iff.1 ha
  exact ⟨by simp, cs, [], by simp⟩

theorem edge_head_cases {a : InstrId} (ha : p.Edge a l.head) :
    ids.getLast? = some a ∨ p.Inside l a := by
  rcases ha with ⟨-, ht⟩ | ⟨-, hnext⟩
  · exact .inr (hg.inside_of_head a (mem_of_mem_targets ht) ht)
  · obtain ⟨b, hb⟩ : ∃ b, ids.getLast? = some b :=
      Option.ne_none_iff_exists'.1 (List.getLast?_eq_none_iff.not.2 hg.ne_nil)
    rw [(hg.next?_iff (hg.isInfix_of_getLast? hb).2).1 hnext]
    exact .inl hb

theorem edge_iff {a b c : InstrId} (hbc : [b, c] <:+: ids) : p.Edge a c ↔ a = b := by
  have hbc' : [b, c] <:+: ids ++ [l.head] := hbc.trans (List.infix_append' [] ids [l.head])
  constructor
  · rintro (⟨-, ht⟩ | ⟨-, hnext⟩)
    · -- only the first instruction of the block is a target, and `c` is not the first
      obtain ⟨hstart, -⟩ := hg.start_of_mem a (mem_of_mem_targets ht) c (hbc.subset (by simp)) ht
      obtain ⟨u, v, huv⟩ := hbc
      have hnodup := (List.nodup_append.1 hg.nodup).1
      rw [← huv] at hstart hnodup
      cases u with
      | nil =>
        simp only [List.nil_append, List.cons_append, List.head?_cons, Option.some.injEq] at hstart
        simp [hstart] at hnodup
      | cons d u =>
        simp only [List.cons_append, List.head?_cons, Option.some.injEq] at hstart
        simp [hstart] at hnodup
    · exact (hg.next?_iff hbc').1 hnext
  · rintro rfl
    exact hg.edge_of_isInfix (hbc.subset (by simp)) hbc'

theorem not_edge_of_inside {a b : InstrId} (ha : p.Inside l a) (hb : b ∈ ids) : ¬ p.Edge a b := by
  rintro (⟨-, ht⟩ | ⟨-, hnext⟩)
  · exact (hg.start_of_mem a (mem_of_mem_targets ht) b hb ht).2 ha
  · obtain ⟨-, -, hpos⟩ := next?_eq_some_iff.1 hnext
    have hlt := hg.position_lt_head hb
    rw [Inside] at ha
    omega

/-- The block of a gate starts the loop with unconstrained variables that meet the condition. -/
theorem isEntryBlock : p.IsEntryBlock s l h guard ids := by
  obtain ⟨assignments, last, rfl, hassign, hlast⟩ := List.map_eq_append_iff.1 hg.block
  obtain ⟨assumption, rfl, hassume⟩ := List.map_eq_singleton_iff.1 hlast
  refine ⟨assignments, assumption, rfl, ?_, ?_⟩
  · rw [← List.forall₂_eq_eq_eq, List.forall₂_map_left_iff, List.forall₂_map_right_iff] at hassign
    refine hassign.flip.imp fun v a ha ↦ ?_
    rw [ha]
    exact Instruction.scaffolds_assign h _ _
  · rw [hassume]
    exact Instruction.scaffolds_assume h _

/-- A loop with a gate is entered through it. -/
theorem enteredThrough : p.EnteredThrough l ids where
  isInfix := hg.isInfix
  edge_head a ha := by
    obtain ⟨hmem, hpiece⟩ := hg.isInfix_of_getLast? ha
    exact hg.edge_of_isInfix hmem hpiece
  of_edge_head a := hg.edge_head_cases
  edge_iff a b c := hg.edge_iff
  not_edge_of_inside a ha b := hg.not_edge_of_inside ha
  suffix_of_path path hpath hout := by
    refine suffix_of_isChain (fun a b c hbc ↦ (hg.edge_iff hbc).1) hpath.left_of_append
      fun a ha ↦ ?_
    have hedge : p.Edge a l.head := (List.isChain_append.1 hpath).2.2 a ha l.head rfl
    exact (hg.edge_head_cases hedge).resolve_right (hout a ha)
  targets_exit := hg.targets_exit

end Gated

/-! ### The run over a function -/

section

variable {p₀ : Program} {m : Loop} {todo : List Loop} {v : Verdict}

/-- What a run keeps of a loop that came to the verdict `v`: the summary is about the loop, and the
loop has a gate, made for its condition in the input. -/
def Settled (s : Setup) (name : String) (p₀ : Program) (l : Loop) (v : Verdict) (q : Program) :
    Prop :=
  ∀ sm, v = .converted sm → sm.function = name ∧ sm.head = l.head ∧ sm.exit = l.exit ∧
    ∃ condition ids, p₀.loopCondition l.head l.exit = .ok (some condition) ∧
      Gated s l (p₀.fetch l.head) condition.guard ids q

/-- Dealing with a loop settles it. -/
theorem Settled.of_dealt (hp : Pending p₀ (l :: todo) p) (hd : Dealt s name l p v q) :
    Settled s name p₀ l v q := by
  cases hd with
  | skipped => exact fun _ hsm ↦ Verdict.noConfusion hsm
  | @converted body condition _ _ _ _ _ _ hcond hconv =>
    -- head and guard are still those of the input
    obtain ⟨condition₀, hcond₀, -, hguard⟩ := hp.exists_hasCondition hcond
    have hhead := hp.extension.retained l.head (range_eq_ok hcond₀.range).1
    obtain ⟨ids, hg⟩ := hconv.gated hcond hp.live
    rw [← hguard] at hg
    rintro sm hsm
    cases hsm
    exact ⟨rfl, rfl, rfl, condition₀, ids, loopCondition_eq_some hcond₀,
      { hg with block := by rw [hg.block, scaffoldBlock_of_retained hhead] }⟩

/-- Dealing with a later loop that has another head keeps a loop settled. -/
theorem Settled.later (hset : Settled s name p₀ l v p) (hl : p₀.IsLoop l)
    (hp : Pending p₀ (m :: todo) p) (hclean : p₀.Clean) (hlm : p₀.Later l m)
    (hne : l.head ≠ m.head) {w : Verdict} (hd : Dealt s name m p w q) :
    Settled s name p₀ l v q := by
  have hm := hp.isLoop m List.mem_cons_self
  cases hd with
  | skipped => exact hset
  | converted hcond hconv =>
    have hscaffold : ∀ a ∈ p₀.order, (p.fetch a).isScaffold = false := fun a ha ↦ by
      rw [(hp.extension.retained a ha).isScaffold_eq, hclean.isScaffold a ha]
    intro sm hsm
    obtain ⟨hfunction, hhead, hexit, condition, ids, hcondition, hg⟩ := hset sm hsm
    exact ⟨hfunction, hhead, hexit, condition, ids, hcondition,
      hg.converted (hl.of_extends hp.extension) hconv hcond (hlm.of_extends hp.extension hl hm)
        (Ne.symm hne) (hscaffold _ hm.head_mem) (hscaffold _ hm.exit_mem)⟩

end

/-- Where the loops of a function are pairwise apart and have different heads, every loop that was
converted is settled in the end. -/
theorem convertFunction_settled {vs : List Verdict} (hclean : p.Clean)
    (hapart : (discovery name p).Pairwise fun l m ↦ p.Apart l m ∧ l.head ≠ m.head)
    (hrun : (convertFunction s discovery name).run p = .ok vs q) :
    ∀ v ∈ vs, ∃ l ∈ discovery name p, Settled s name p l v q := by
  have hheads : (p.turns (discovery name p)).Pairwise fun l m ↦ l.head ≠ m.head :=
    ((p.turns_perm _).pairwise_iff Ne.symm).2 (hapart.imp And.right)
  obtain ⟨pairs, hfst, hsnd, -, hset⟩ := invariant_of_run_convertFunction
    (I := fun done q ↦ ∀ e ∈ done, Settled s name p e.1 e.2 q) hclean (hapart.imp And.left) hrun
    (fun e he ↦ absurd he List.not_mem_nil)
    (fun done m todo r w t hall hdone hpending _ hd hset e he ↦ by
      rcases List.mem_append.1 he with he | he
      · have hmem : e.1 ∈ done.map Prod.fst := List.mem_map_of_mem he
        rw [← hall] at hheads
        exact (hset e he).later (hdone e.1 hmem).1 hpending hclean (hdone e.1 hmem).2
          ((List.pairwise_append.1 hheads).2.2 e.1 hmem m List.mem_cons_self) hd
      · cases List.mem_singleton.1 he
        exact .of_dealt hpending hd)
  exact exists_mem_of_mem_verdicts hfst hsnd hset

/-! ### The run over all functions -/

namespace Renumbered

theorem scaffolds {id : InstrId} {kind : Kind} {code : Code} (hpq : Renumbered p q)
    (hi : (p.fetch id).Scaffolds h kind guard code) :
    (q.fetch id).Scaffolds h kind guard code := by
  obtain ⟨location, target, hfetch⟩ := hpq.exists_fetch_eq id
  rw [hfetch]
  exact { hi with }

theorem isEntryBlock (hpq : Renumbered p q) (hp : p.IsEntryBlock s l h guard ids) :
    q.IsEntryBlock s l h guard ids := by
  obtain ⟨assignments, assumption, hids, hassign, hassume⟩ := hp
  exact ⟨assignments, assumption, hids, hassign.imp fun _ _ ↦ hpq.scaffolds, hpq.scaffolds hassume⟩

theorem inside_iff (h : Renumbered p q) {a : InstrId} : q.Inside l a ↔ p.Inside l a := by
  rw [Inside, Inside, position, position, position, position, position, position, h.order]

theorem enteredThrough (h : Renumbered p q) (hp : p.EnteredThrough l ids) :
    q.EnteredThrough l ids := by
  have hedge : q.Edge = p.Edge := by
    funext a b
    exact propext h.edge_iff
  have hinside : q.Inside l = p.Inside l := by
    funext a
    exact propext h.inside_iff
  constructor
  case isInfix => exact h.order ▸ hp.isInfix
  case edge_head => exact hedge ▸ hp.edge_head
  case of_edge_head => exact hedge ▸ hinside ▸ hp.of_edge_head
  case edge_iff => exact hedge ▸ hp.edge_iff
  case not_edge_of_inside => exact hedge ▸ hinside ▸ hp.not_edge_of_inside
  case suffix_of_path => exact hedge ▸ hinside ▸ hp.suffix_of_path
  case targets_exit =>
    obtain ⟨location, target, hfetch⟩ := h.exists_fetch_eq l.exit
    rw [hfetch]
    exact hp.targets_exit

end Renumbered

/-- After a run that succeeds, over functions without scaffolding, with live targets, and with loops
that are pairwise apart and have different heads, every converted loop has right in front of its
head a block that gives its variables unconstrained values and assumes its condition in the input,
and is entered through this block only. -/
theorem Functions.run_enteredThrough {fs : Functions} {report : Report}
    (hclean : ∀ name f, fs.get? name = some f → f.bodyAvailable = true → f.body.Clean)
    (hapart : ∀ name f, fs.get? name = some f → f.bodyAvailable = true →
      (discovery name f.body).Pairwise fun l m ↦ f.body.Apart l m ∧ l.head ≠ m.head)
    (hrun : (fs.run s discovery).progress.outcome = .ok report) :
    ∀ sm ∈ report.converted, ∃ f g l condition ids,
      fs.get? sm.function = some f ∧
      (fs.run s discovery).functions.get? sm.function = some g ∧
      l ∈ discovery sm.function f.body ∧ sm.head = l.head ∧ sm.exit = l.exit ∧
      f.body.loopCondition l.head l.exit = .ok (some condition) ∧
      condition.guard = (f.body.fetch condition.branch).guard ∧
      g.body.IsEntryBlock s l (f.body.fetch l.head) condition.guard ids ∧
      g.body.EnteredThrough l ids := by
  intro sm hsm
  obtain ⟨f, g, vs, q, hf, havailable, hg, hconvert, hverdict, hnumbered⟩ :=
    exists_of_mem_converted hrun hsm
  obtain ⟨l, hl, hset⟩ := convertFunction_settled (hclean _ f hf havailable)
    (hapart _ f hf havailable) hconvert _ hverdict
  obtain ⟨-, hhead, hexit, condition, ids, hcond, hgate⟩ := hset sm rfl
  obtain ⟨body, hbody⟩ := exists_hasCondition hcond
  exact ⟨f, g, l, condition, ids, hf, hg, hl, hhead, hexit, hcond, hbody.guard_eq,
    hnumbered.isEntryBlock hgate.isEntryBlock, hnumbered.enteredThrough hgate.enteredThrough⟩

/-- Both loops of `nestedLoops` are converted. The outer one has a variable. -/
theorem Functions.run_enteredThrough_nestedLoops :
    let fs := single "main" nestedLoops
    let d : Discovery := fun _ _ ↦ nestedLoops.loops
    let r := fs.run { config := .full } d
    ∃ report, r.progress.outcome = .ok report ∧
      report.converted.map LoopSummary.head = [⟨0⟩, ⟨1⟩] ∧
      ∀ sm ∈ report.converted, ∃ f g l condition ids,
        fs.get? sm.function = some f ∧ r.functions.get? sm.function = some g ∧
        l ∈ d sm.function f.body ∧ sm.head = l.head ∧ sm.exit = l.exit ∧
        f.body.loopCondition l.head l.exit = .ok (some condition) ∧
        condition.guard = (f.body.fetch condition.branch).guard ∧
        g.body.IsEntryBlock { config := .full } l (f.body.fetch l.head) condition.guard ids ∧
        g.body.EnteredThrough l ids := by
  intro fs d r
  have hheads : r.progress.outcome.toOption.map (·.converted.map LoopSummary.head) =
      some [⟨0⟩, ⟨1⟩] := by decide +kernel
  cases hrun : r.progress.outcome with
  | error fault =>
    rw [hrun] at hheads
    cases hheads
  | ok report =>
    rw [hrun] at hheads
    refine ⟨report, rfl, Option.some.inj hheads, run_enteredThrough (fun name f hf _ ↦ ?_)
      (fun name f hf _ ↦ ?_) hrun⟩
    · rw [(eq_of_get?_single hf).2]
      decide
    · rw [(eq_of_get?_single hf).2]
      decide

end LoopInduction
