import LoopInduction.Proofs.Conversion.Success

/-!
# Scaffolding keeps the control flow

Without copies of loop bodies a run only writes scaffolding in front of loops. Then the control flow
of the input is that of the output, with falls through scaffolding left out
(`Functions.run_edges`): a jump that now goes to the scaffolding of a loop is led on to the head
that it went to before, and so is what falls into the scaffolding. How the loops lie to each other
does not matter. A program that this holds of is *dressed*; each conversion keeps it so.

## Main definitions

* `Program.Edge` : one edge of control flow.
* `Program.ScaffoldFall` : a fall through scaffolding.
* `Program.Dressed` : a program is another one with scaffolding.

## Main results

* `Functions.run_edges` : the control flow of the input is that of the output.
-/

namespace LoopInduction

namespace Program

variable {p₀ p q : Program} {s : Setup} {l : Loop} {a b c : InstrId}

/-- Control can go from `a` to `b`: a jump goes to its targets, and whatever is no jump that is
always taken goes to the next instruction. -/
def Edge (p : Program) (a b : InstrId) : Prop :=
  ((p.fetch a).isGoto = true ∧ b ∈ (p.fetch a).targets) ∨
    ((p.fetch a).isAlwaysTaken = false ∧ p.next? a = some b)

/-- Control falls through the scaffolding `a` to `b`. -/
def ScaffoldFall (p : Program) (a b : InstrId) : Prop :=
  (p.fetch a).isScaffold = true ∧ (p.fetch a).isAlwaysTaken = false ∧ p.next? a = some b

/-- `p` is `p₀` with scaffolding that only falls through, and jumps to scaffolding are jumps to what
it leads to. -/
structure Dressed (p₀ p : Program) : Prop where
  extension : p₀.Extends p
  order : p.order.filter (fun id ↦ !(p.fetch id).isScaffold) = p₀.order
  isAlwaysTaken : ∀ id ∈ p.order, (p.fetch id).isScaffold = true →
    (p.fetch id).isAlwaysTaken = false
  live : p.TargetsLive
  mem_targets : ∀ a ∈ p₀.order, ∀ b,
    b ∈ (p₀.fetch a).targets ↔ ∃ t ∈ (p.fetch a).targets, p.skipScaffold t = some b

theorem Clean.dressed (h : p₀.Clean) : Dressed p₀ p₀ where
  extension := .refl p₀
  order := List.filter_eq_self.2 fun id hid ↦ by simp [h.isScaffold id hid]
  isAlwaysTaken id hid hs := by
    rw [h.isScaffold id hid] at hs
    cases hs
  live := h.live
  mem_targets a ha b := by
    have hskip : ∀ t ∈ (p₀.fetch a).targets, p₀.skipScaffold t = some t := fun t ht ↦ by
      have htp := h.live a _ (get?_eq_some_fetch ha) t ht
      exact skipScaffold_of_isScaffold_eq_false htp (h.isScaffold t htp)
    constructor
    · intro hb
      exact ⟨b, hb, hskip b hb⟩
    · rintro ⟨t, ht, htb⟩
      rw [hskip t ht] at htb
      cases htb
      exact ht

namespace Dressed

variable (h : Dressed p₀ p)

include h

theorem isScaffold_eq_false_iff (ha : a ∈ p.order) :
    (p.fetch a).isScaffold = false ↔ a ∈ p₀.order := by
  rw [← h.order, List.mem_filter, Bool.not_eq_true']
  exact ⟨fun hs ↦ ⟨ha, hs⟩, fun hs ↦ hs.2⟩

/-- Falls through scaffolding end where the scaffolding leads to. -/
theorem reflTransGen_scaffoldFall_iff (hc : c ∈ p.order) (hb : b ∈ p₀.order) :
    Relation.ReflTransGen p.ScaffoldFall c b ↔ p.skipScaffold c = some b := by
  have hbs := (h.isScaffold_eq_false_iff (h.extension.mem hb)).2 hb
  constructor
  · intro hfalls
    induction hfalls using Relation.ReflTransGen.head_induction_on with
    | refl => exact skipScaffold_of_isScaffold_eq_false (h.extension.mem hb) hbs
    | head hfall _ ih =>
      rw [skipScaffold_of_next? hfall.2.2 hfall.1]
      exact ih (mem_of_next? hfall.2.2)
  · -- the number of instructions behind `c` decreases
    obtain ⟨n, hn⟩ : ∃ n, p.order.length = p.position c + n :=
      ⟨_, (Nat.add_sub_of_le (Nat.le_of_lt (position_lt_iff.2 hc))).symm⟩
    induction n generalizing c with
    | zero => exact absurd (position_lt_iff.2 hc) (by omega)
    | succ n ih =>
      intro hskip
      cases hs : (p.fetch c).isScaffold with
      | false =>
        rw [skipScaffold_of_isScaffold_eq_false hc hs] at hskip
        cases hskip
        exact .refl
      | true =>
        cases hnext : p.next? c with
        | none =>
          rw [skipScaffold_eq_none hc hnext hs] at hskip
          cases hskip
        | some d =>
          obtain ⟨-, hd, hpos⟩ := next?_eq_some_iff.1 hnext
          rw [skipScaffold_of_next? hnext hs] at hskip
          exact .head ⟨hs, h.isAlwaysTaken c hc hs, hnext⟩ (ih hd (by omega) hskip)

/-- The next instruction of the input is what the next one of the output leads to. -/
theorem next?_iff (ha : a ∈ p₀.order) :
    p₀.next? a = some b ↔ ∃ c, p.next? a = some c ∧ p.skipScaffold c = some b := by
  obtain ⟨pre, post, hsplit⟩ := List.append_of_mem (h.extension.mem ha)
  have has := (h.isScaffold_eq_false_iff (h.extension.mem ha)).2 ha
  have hsplit₀ : p₀.order = pre.filter (fun id ↦ !(p.fetch id).isScaffold) ++
      a :: post.filter fun id ↦ !(p.fetch id).isScaffold := by
    rw [← h.order, hsplit, List.filter_append, List.filter_cons_of_pos (by simp [has])]
  rw [next?_of_order hsplit₀, next?_of_order hsplit, List.head?_filter]
  cases post with
  | nil => simp
  | cons c post =>
    have hsplit' : p.order = (pre ++ [a]) ++ c :: post := by
      rw [hsplit, List.append_assoc, List.singleton_append]
    have hskip : p.skipScaffold c = (c :: post).find? fun id ↦ !(p.fetch id).isScaffold := by
      rw [skipScaffold_eq_find?, position_eq_length hsplit', hsplit', List.drop_left]
    rw [← hskip]
    simp

/-- The edges of the input are those of the output, with falls through scaffolding left out. -/
theorem edge_iff (ha : a ∈ p₀.order) (hb : b ∈ p₀.order) :
    p₀.Edge a b ↔ ∃ c, p.Edge a c ∧ Relation.ReflTransGen p.ScaffoldFall c b := by
  have hretained := h.extension.retained a ha
  have hap := h.extension.mem ha
  rw [Edge, ← hretained.isGoto_eq, ← hretained.isAlwaysTaken_eq, h.mem_targets a ha,
    h.next?_iff ha]
  constructor
  · rintro (⟨hgoto, t, ht, hskip⟩ | ⟨htaken, c, hc, hskip⟩)
    · exact ⟨t, .inl ⟨hgoto, ht⟩, (h.reflTransGen_scaffoldFall_iff
        (h.live a _ (get?_eq_some_fetch hap) t ht) hb).2 hskip⟩
    · exact ⟨c, .inr ⟨htaken, hc⟩,
        (h.reflTransGen_scaffoldFall_iff (mem_of_next? hc) hb).2 hskip⟩
  · rintro ⟨c, ⟨hgoto, ht⟩ | ⟨htaken, hc⟩, hfalls⟩
    · exact .inl ⟨hgoto, c, ht, (h.reflTransGen_scaffoldFall_iff
        (h.live a _ (get?_eq_some_fetch hap) c ht) hb).1 hfalls⟩
    · exact .inr ⟨htaken, c, hc,
        (h.reflTransGen_scaffoldFall_iff (mem_of_next? hc) hb).1 hfalls⟩

/-- Nothing changes if a pass keeps the order, the targets and what is scaffolding. -/
theorem assumedIf (hassumed : AssumedIf s l p q) : Dressed p₀ q := by
  obtain rfl | ⟨ids, hassumed⟩ := hassumed.eq_or_exists
  · exact h
  · have hext := hassumed.extension
    have hscaffold : ∀ id ∈ p.order, (q.fetch id).isScaffold = (p.fetch id).isScaffold :=
      fun id hid ↦ (hext.retained id hid).isScaffold_eq
    have hsplice : Splice p q p.order.length [] := ⟨Nat.le_refl _, by simp [hassumed.order]⟩
    have hskip : ∀ t ∈ p.order, q.skipScaffold t = p.skipScaffold t := fun t ht ↦
      hsplice.skipScaffold_old (by simp) hscaffold ht
    constructor
    case extension => exact h.extension.trans hext
    case order =>
      rw [hassumed.order, ← h.order]
      exact List.filter_congr fun id hid ↦ by rw [hscaffold id hid]
    case isAlwaysTaken =>
      intro id hid hs
      rw [hassumed.order] at hid
      rw [(hext.retained id hid).isAlwaysTaken_eq]
      exact h.isAlwaysTaken id hid (hscaffold id hid ▸ hs)
    case live => exact hassumed.targetsLive h.live
    case mem_targets =>
      intro a ha b
      have hap := h.extension.mem ha
      rw [h.mem_targets a ha b, hassumed.targets_eq hap]
      refine exists_congr fun t ↦ and_congr_right fun ht ↦ ?_
      rw [hskip t (h.live a _ (get?_eq_some_fetch hap) t ht)]

end Dressed

end Program

open Program

namespace Scaffolded

variable {p q : Program} {s : Setup} {l : Loop} {guard : Expr} {body : List InstrId}
  {a b t : InstrId} (hs : Scaffolded s l guard body p q)

include hs

theorem isScaffold_old (ha : a ∈ p.order) : (q.fetch a).isScaffold = (p.fetch a).isScaffold :=
  (hs.extension.retained a ha).isScaffold_eq

theorem isScaffold_new (ha : a ∈ p.freshIds (l.vars.length + 1)) :
    (q.fetch a).isScaffold = true :=
  isScaffold_of_mem_scaffoldBlock (hs.fetch_mem_scaffoldBlock ha)

/-- Without scaffolding the order is what it was. -/
theorem filter_order : q.order.filter (fun id ↦ !(q.fetch id).isScaffold) =
    p.order.filter fun id ↦ !(p.fetch id).isScaffold := by
  have hnil : (p.freshIds (l.vars.length + 1)).filter (fun id ↦ !(q.fetch id).isScaffold) = [] :=
    List.filter_eq_nil_iff.2 fun id hid ↦ by simp [hs.isScaffold_new hid]
  have hfilter : ∀ ids : List InstrId, (∀ a ∈ ids, a ∈ p.order) →
      ids.filter (fun id ↦ !(q.fetch id).isScaffold) =
        ids.filter fun id ↦ !(p.fetch id).isScaffold :=
    fun ids hids ↦ List.filter_congr fun a ha ↦ by rw [hs.isScaffold_old (hids a ha)]
  rw [hs.splice.order, List.filter_append, List.filter_append, hnil, List.append_nil,
    hfilter _ fun a ↦ List.mem_of_mem_take, hfilter _ fun a ↦ List.mem_of_mem_drop,
    ← List.filter_append, List.take_append_drop]

/-- Scaffolding leads from an old instruction to where it led before. -/
theorem skipScaffold_old (ht : t ∈ p.order) : q.skipScaffold t = p.skipScaffold t :=
  hs.splice.skipScaffold_old (fun _ ↦ hs.isScaffold_new) (fun _ ↦ hs.isScaffold_old) ht

/-- The block leads to the head. -/
theorem skipScaffold_fresh (hmem : l.head ∈ p.order) (hhead : (p.fetch l.head).isScaffold = false) :
    q.skipScaffold p.fresh = some l.head := by
  have hcons : p.freshIds (l.vars.length + 1) =
      [] ++ p.fresh :: (p.freshIds (l.vars.length + 1)).tail :=
    List.eq_cons_of_mem_head? (head?_freshIds _)
  rw [hs.splice.skipScaffold_new (fun _ ↦ hs.isScaffold_new) (fun _ ↦ hs.isScaffold_old) hcons,
    drop_position hmem, List.find?_cons_of_pos (by simp [hhead])]

/-- A jump that is not the exit leads, through scaffolding, to where it led before. -/
theorem exists_target_iff (hlive : p.TargetsLive) (hmem : l.head ∈ p.order)
    (hhead : (p.fetch l.head).isScaffold = false) (ha : a ∈ p.order) (hne : a ≠ l.exit) :
    (∃ t ∈ (q.fetch a).targets, q.skipScaffold t = some b) ↔
      ∃ t ∈ (p.fetch a).targets, p.skipScaffold t = some b := by
  have hskip : ∀ t ∈ (p.fetch a).targets, q.skipScaffold t = p.skipScaffold t := fun t ht ↦
    hs.skipScaffold_old (hlive a _ (get?_eq_some_fetch ha) t ht)
  rw [fetch_eq (hs.get?_old a ha), entered, if_neg hne]
  split
  · exact exists_congr fun t ↦ and_congr_right fun ht ↦ by rw [hskip t ht]
  · have hredirect : ∀ t ∈ (p.fetch a).targets,
        q.skipScaffold (if t = l.head then p.fresh else t) = p.skipScaffold t := by
      intro t ht
      split
      · next e =>
        rw [e, hs.skipScaffold_fresh hmem hhead, skipScaffold_of_isScaffold_eq_false hmem hhead]
      · exact hskip t ht
    constructor
    · rintro ⟨u, hu, hub⟩
      obtain ⟨t, ht, rfl⟩ := Instruction.mem_targets_redirect.1 hu
      exact ⟨t, ht, (hredirect t ht).symm.trans hub⟩
    · rintro ⟨t, ht, htb⟩
      exact ⟨_, Instruction.mem_targets_redirect.2 ⟨t, ht, rfl⟩, (hredirect t ht).trans htb⟩

end Scaffolded

namespace Program

variable {p₀ p q : Program} {s : Setup} {l : Loop} {guard : Expr} {body : List InstrId}

/-- Scaffolding a loop whose exit jumps back to the head only moves edges onto scaffolding that
leads to where they went before. -/
theorem Dressed.scaffolded (h : Dressed p₀ p) (hs : Scaffolded s l guard body p q)
    (hl : p₀.IsLoop l) (htargets : (p₀.fetch l.exit).targets = [l.head]) : Dressed p₀ q := by
  have hheadp := h.extension.mem hl.head_mem
  have hhead : (p.fetch l.head).isScaffold = false :=
    (h.isScaffold_eq_false_iff hheadp).2 hl.head_mem
  constructor
  case extension => exact h.extension.trans hs.extension
  case order => rw [hs.filter_order, h.order]
  case isAlwaysTaken =>
    intro id hid hscaffold
    rcases hs.splice.mem_iff.1 hid with hid | hid
    · rw [(hs.extension.retained id hid).isAlwaysTaken_eq]
      exact h.isAlwaysTaken id hid (hs.isScaffold_old hid ▸ hscaffold)
    · exact isAlwaysTaken_of_mem_scaffoldBlock (hs.fetch_mem_scaffoldBlock hid)
  case live => exact hs.targetsLive hheadp h.live
  case mem_targets =>
    intro a ha b
    have hap := h.extension.mem ha
    by_cases he : a = l.exit
    · rw [he, htargets, fetch_eq (hs.get?_old l.exit (h.extension.mem hl.exit_mem)), entered,
        if_pos rfl]
      simp only [List.mem_singleton, exists_eq_left, hs.skipScaffold_old hheadp,
        skipScaffold_of_isScaffold_eq_false hheadp hhead, Option.some.injEq]
      exact eq_comm
    · rw [h.mem_targets a ha b, hs.exists_target_iff h.live hheadp hhead hap he]

/-- The loop is there, and its exit jumps back to its head and nowhere else. -/
structure IsClosed (p : Program) (l : Loop) : Prop where
  isLoop : p.IsLoop l
  isGoto : (p.fetch l.exit).isGoto = true
  targets : (p.fetch l.exit).targets = [l.head]

instance : Decidable (p.IsClosed l) :=
  decidable_of_iff (p.IsLoop l ∧ (p.fetch l.exit).isGoto = true ∧
      (p.fetch l.exit).targets = [l.head])
    ⟨fun ⟨hl, hg, ht⟩ ↦ ⟨hl, hg, ht⟩, fun h ↦ ⟨h.isLoop, h.isGoto, h.targets⟩⟩

/-- Without copies of bodies only scaffolding is written, and assertions become assumptions. -/
theorem Dressed.dealt {name : String} {v : Verdict} (h : Dressed p₀ p) (hl : p₀.IsClosed l)
    (hdup : s.config.duplicateBody = false) (hd : Dealt s name l p v q) : Dressed p₀ q := by
  cases hd with
  | skipped => exact h
  | @converted _ _ _ _ p₁ p₂ p₃ _ hcond hconv =>
    have h₁ : Dressed p₀ p₁ := h.scaffolded hconv.scaffolded hl.isLoop hl.targets
    have h₂ : p₂ = p₁ := hconv.unwound.eq_of_duplicateBody hdup
    have h₃ : p₃ = p₂ := by
      refine hconv.forwarded.eq_of_assumesAfter ?_
      rw [Config.assumesAfter, hdup, Bool.false_and]
    rw [← h₂, ← h₃] at h₁
    exact h₁.assumedIf hconv.assumed

/-- Without copies of bodies the conversion of a loop succeeds, and only writes scaffolding. -/
theorem Dressed.run_convertLoop {name : String} (h : Dressed p₀ p) (hl : p₀.IsClosed l)
    (hdup : s.config.duplicateBody = false) :
    ∃ v q, (Edit.atLoop name l (Edit.convertLoop s name l)).run p = .ok v q ∧ Dressed p₀ q := by
  obtain ⟨body, hbody⟩ := exists_range_iff_isLoop.2 (hl.isLoop.of_extends h.extension)
  have hready : p.Ready s l body := by
    refine ⟨h.live, ?_, fun hd ↦ absurd hd (by simp [hdup])⟩
    exact (h.isScaffold_eq_false_iff (range_eq_ok hbody).1).2 hl.isLoop.head_mem
  have hconv : ∀ condition, p.HasCondition l body condition → p.Convertible s l condition := by
    refine fun condition _ ↦ ⟨?_, fun hd ↦ absurd hd (by simp [hdup]), fun ha ↦ ?_⟩
    · rw [(h.extension.retained _ hl.isLoop.exit_mem).isGoto_eq, hl.isGoto]
    · rw [Config.assumesAfter, hdup, Bool.false_and] at ha
      cases ha
  obtain ⟨v, q, hrun, hd⟩ := Edit.run_atLoop_convertLoop name hbody hready hconv
  exact ⟨v, q, hrun, h.dealt hl hdup hd⟩

end Program

/-- Without copies of bodies a function is converted, and gains scaffolding only. -/
theorem convertFunction_dressed {p : Program} {s : Setup} {discovery : Discovery} {name : String}
    (hclean : p.Clean) (hloops : ∀ l ∈ discovery name p, p.IsClosed l)
    (hdup : s.config.duplicateBody = false) :
    ∃ vs q, (convertFunction s discovery name).run p = .ok vs q ∧ p.Dressed q := by
  rw [run_convertFunction fun l hl ↦ Program.exists_range_iff_isLoop.2 (hloops l hl).isLoop]
  obtain ⟨vs, q, hrun, hq, -⟩ := EStateM.run_mapM_of_invariant
    (I := fun todo q ↦ p.Dressed q ∧ ∀ l ∈ todo, p.IsClosed l)
    (f := fun l ↦ Edit.atLoop name l (Edit.convertLoop s name l))
    (fun l todo q ⟨h, hclosed⟩ ↦ by
      obtain ⟨v, r, hrun, hr⟩ := h.run_convertLoop (hclosed l List.mem_cons_self) hdup
      exact ⟨v, r, hrun, hr, fun m hm ↦ hclosed m (List.mem_cons_of_mem _ hm)⟩)
    ⟨hclean.dressed, fun l hl ↦ hloops l ((p.turns_perm _).subset hl)⟩
  exact ⟨vs, q, hrun, hq⟩

namespace Renumbered

variable {p q : Program} {a b : InstrId}

theorem edge_iff (h : Renumbered p q) : q.Edge a b ↔ p.Edge a b := by
  obtain ⟨location, target, hfetch⟩ := h.exists_fetch_eq a
  rw [Program.Edge, Program.Edge, h.next?_eq, hfetch]
  rfl

theorem scaffoldFall_iff (h : Renumbered p q) : q.ScaffoldFall a b ↔ p.ScaffoldFall a b := by
  obtain ⟨location, target, hfetch⟩ := h.exists_fetch_eq a
  rw [Program.ScaffoldFall, Program.ScaffoldFall, h.next?_eq, hfetch]
  rfl

end Renumbered

/-- A run that copies no loop bodies, over functions without scaffolding, with live targets, and
with loops whose exits jump back to their heads and nowhere else, succeeds. In every function
control can go from one instruction of the input to another exactly if it can in the output, by one
edge and then falling through scaffolding only. -/
theorem Functions.run_edges {fs : Functions} {s : Setup} {discovery : Discovery}
    (hdup : s.config.duplicateBody = false)
    (hclean : ∀ name f, fs.get? name = some f → f.body.Clean)
    (hloops : ∀ name f, fs.get? name = some f → f.bodyAvailable = true →
      ∀ l ∈ discovery name f.body, f.body.IsClosed l) :
    (∃ report, (fs.run s discovery).progress.outcome = .ok report) ∧
      ∀ name f, fs.get? name = some f →
        ∃ g, (fs.run s discovery).functions.get? name = some g ∧
          ∀ a ∈ f.body.order, ∀ b ∈ f.body.order, f.body.Edge a b ↔
            ∃ c, g.body.Edge a c ∧ Relation.ReflTransGen g.body.ScaffoldFall c b := by
  have hconvert : ∀ name f, fs.get? name = some f →
      (∃ vs, (f.convert s discovery name).1 = .ok vs) ∧
        f.body.Dressed (f.convert s discovery name).2.body := by
    intro name f hf
    rw [Function.convert]
    cases havailable : f.bodyAvailable with
    | false => exact ⟨⟨[], rfl⟩, (hclean name f hf).dressed⟩
    | true =>
      obtain ⟨vs, q, hrun, hq⟩ := convertFunction_dressed (hclean name f hf)
        (hloops name f hf havailable) hdup
      rw [if_pos rfl, hrun]
      exact ⟨⟨vs, rfl⟩, hq⟩
  obtain ⟨report, hreport⟩ := run_ok_iff.2 fun name f hf ↦ (hconvert name f hf).1
  refine ⟨⟨report, hreport⟩, fun name f hf ↦ ?_⟩
  obtain ⟨g, hg, -, hnumbered⟩ := get?_run hreport hf
  refine ⟨g, hg, fun a ha b hb ↦ ?_⟩
  have hfall : g.body.ScaffoldFall = (f.convert s discovery name).2.body.ScaffoldFall := by
    funext c d
    exact propext hnumbered.scaffoldFall_iff
  simp only [hnumbered.edge_iff, hfall]
  exact (hconvert name f hf).2.edge_iff ha hb

/-- Two loops with the same head, one jumping back if a guard holds and the other always. -/
def sharedHead : Program :=
  .ofList [.goto ⟨4⟩ (.var ⟨"done", .bool⟩), .assert (.var ⟨"safe", .bool⟩),
    .goto ⟨0⟩ (.var ⟨"again", .bool⟩), .goto ⟨0⟩ (.bool true), .endFunction]

theorem Functions.run_edges_sharedHead :
    let d : Discovery := fun _ _ ↦ [⟨⟨0⟩, ⟨2⟩, [⟨"again", .bool⟩]⟩, ⟨⟨0⟩, ⟨3⟩, []⟩]
    (∃ report, ((single "main" sharedHead).run { config := {} } d).progress.outcome =
        .ok report) ∧
      ∀ name f, (single "main" sharedHead).get? name = some f →
        ∃ g, ((single "main" sharedHead).run { config := {} } d).functions.get? name = some g ∧
          ∀ a ∈ f.body.order, ∀ b ∈ f.body.order, f.body.Edge a b ↔
            ∃ c, g.body.Edge a c ∧ Relation.ReflTransGen g.body.ScaffoldFall c b := by
  intro d
  refine run_edges rfl (fun name f hf ↦ ?_) fun name f hf _ ↦ ?_
  · rw [(eq_of_get?_single hf).2]
    decide
  · rw [(eq_of_get?_single hf).2]
    decide

end LoopInduction
