import LoopInduction.Proofs.Program.Arena
import LoopInduction.Proofs.Program.Ledger
import LoopInduction.Proofs.Program.Skips

/-!
# What moves when jumps are redirected

Redirecting the jumps to one instruction moves the edges of the selected sources, all of them, and
no other edge (`Program.redirectTargets_exact`). The targets of a source are listed by their first
occurrences then, whether the new target was among them before or not, and in front of the old one
or behind it. What is not selected keeps its targets as they are, repetitions included.

Where the new target is another one than the old, nothing selected is left to be moved. So doing it
again changes nothing, on a program and along the links alike.

## Main definitions

* `FirstOccurrences` : the elements of a list in the order in which they first occur.
* `Program.JumpsMoved` : what the redirection of some jumps leaves of a program.

## Main results

* `Program.redirectTargets_exact` : redirecting moves exactly the selected jumps.
-/

namespace LoopInduction

/-- `ts` has the elements of `l`, each of them once, in the order of their first occurrences. -/
structure FirstOccurrences (l ts : List InstrId) : Prop where
  nodup : ts.Nodup
  mem_iff : ∀ t, t ∈ ts ↔ t ∈ l
  pairwise : ts.Pairwise fun t u ↦ l.idxOf t < l.idxOf u

theorem firstOccurrences_eraseDups (l : List InstrId) : FirstOccurrences l l.eraseDups where
  nodup := nodup_eraseDups l
  mem_iff _ := List.mem_eraseDups
  pairwise := by
    induction l using List.reverseRecOn with
    | nil => exact List.Pairwise.nil
    | append_singleton l x ih =>
      -- what is behind a list does not count for the first occurrences in it
      have hfirst : ∀ t ∈ l.eraseDups, (l ++ [x]).idxOf t = l.idxOf t := fun t ht ↦
        List.idxOf_append_of_mem (List.mem_eraseDups.1 ht)
      have hold : l.eraseDups.Pairwise fun t u ↦ (l ++ [x]).idxOf t < (l ++ [x]).idxOf u :=
        ih.imp_of_mem fun ht hu h ↦ by rwa [hfirst _ ht, hfirst _ hu]
      rw [eraseDups_concat]
      by_cases hx : x ∈ l
      · rwa [if_pos hx]
      · rw [if_neg hx, List.pairwise_append]
        refine ⟨hold, List.pairwise_singleton _ _, fun t ht u hu ↦ ?_⟩
        have hlast : (l ++ [x]).idxOf x = l.length := by
          rw [List.idxOf_append_of_notMem hx, List.idxOf_cons_self, Nat.add_zero]
        rw [List.mem_singleton.1 hu, hfirst t ht, hlast]
        exact List.idxOf_lt_length_of_mem (List.mem_eraseDups.1 ht)

namespace Program

variable {p : Program} {old new id : InstrId} {accept : InstrId → Bool}

theorem jumpSources_eq_filter (p : Program) (t : InstrId) :
    p.jumpSources t = p.order.filter fun id ↦ t ∈ (p.fetch id).targets := by
  rw [jumpSources, entries, List.filter_map, List.map_map]
  exact List.map_id _

theorem fetch_redirectTargets (id : InstrId) : (p.redirectTargets old new accept).1.fetch id =
    if accept id then (p.fetch id).redirect old new else p.fetch id := by
  rw [fetch, get?_redirectTargets, fetch]
  cases p.get? id with
  | none => exact (ite_self (c := (accept id = true)) Instruction.skip).symm
  | some i => rfl

/-- No selected instruction goes on jumping to the old target, and all others do. -/
theorem jumpSources_redirectTargets (hne : old ≠ new) :
    (p.redirectTargets old new accept).1.jumpSources old =
      (p.jumpSources old).filter (!accept ·) := by
  rw [jumpSources_eq_filter, jumpSources_eq_filter, order_redirectTargets, List.filter_filter]
  refine List.filter_congr fun id _ ↦ ?_
  rw [fetch_redirectTargets]
  cases haccept : accept id with
  | false => simp
  | true =>
    have hgone : old ∉ ((p.fetch id).redirect old new).targets := fun h ↦
      (Instruction.mem_targets_of_redirect h hne).2 rfl
    simpa using hgone

theorem filter_jumpSources_redirectTargets (hne : old ≠ new) :
    ((p.redirectTargets old new accept).1.jumpSources old).filter accept = [] := by
  rw [jumpSources_redirectTargets hne, List.filter_filter, List.filter_eq_nil_iff]
  simp

theorem redirectTargets_of_filter_eq_nil (h : (p.jumpSources old).filter accept = []) :
    p.redirectTargets old new accept = (p, 0) := by
  have hmap : (p.map fun id i ↦ if id ∈ ([] : List InstrId) then i.redirect old new else i) = p :=
    map_id fun _ _ ↦ if_neg List.not_mem_nil
  rw [redirectTargets, h]
  exact Prod.ext hmap rfl

end Program

/-- Without a source, a redirection along the links leaves all slots as they are. -/
theorem Arena.Change.run_redirectTargets_of_filter_eq_nil {a : Arena} {old new : InstrId}
    {accept : InstrId → Bool} (h : (a.jumpSources old).filter accept = []) :
    (redirectTargets old new accept).run a = .ok 0 a := by
  show EStateM.Result.ok (((a.jumpSources old).filter accept).foldl (redirectOne old new) (a, 0)).2
    (((a.jumpSources old).filter accept).foldl (redirectOne old new) (a, 0)).1 = .ok 0 a
  rw [h]
  rfl

namespace Program

/-- What redirecting the jumps from `old` to `new` of the accepted instructions leaves of `p`: the
program `q`, with `n` instructions redirected. -/
structure JumpsMoved (p : Program) (old new : InstrId) (accept : InstrId → Bool) (q : Program)
    (n : Nat) : Prop where
  count : n = p.entries.countP fun e ↦ old ∈ e.2.targets && accept e.1
  jumpSources : q.jumpSources old = (p.jumpSources old).filter (!accept ·)
  order : q.order = p.order
  /-- An accepted instruction with the old target has the new one in all its places, and is the same
  in everything else. Of several targets that are equal now the first one stays. -/
  selected : ∀ id i, p.get? id = some i → old ∈ i.targets → accept id = true →
    ∃ ts, FirstOccurrences (i.targets.map fun t ↦ if t = old then new else t) ts ∧
      q.get? id = some { i with targets := ts }
  others : ∀ id, (∀ i, p.get? id = some i → old ∈ i.targets → accept id = false) →
    q.get? id = p.get? id
  again : q.redirectTargets old new accept = (q, 0)
  /-- On linked slots the sources are redirected one after the other, the same is left, and doing it
  again changes nothing there either. -/
  linked : ∀ a : Arena, a.Links p →
    ∃ a', (Arena.Change.redirectTargets old new accept).run a = .ok n a' ∧ a'.Links q ∧
      (Arena.Change.redirectTargets old new accept).run a' = .ok 0 a'

/-- Redirecting the jumps to an instruction to another one moves exactly the jumps of the accepted
sources. -/
theorem redirectTargets_exact (hne : old ≠ new) (p : Program) (accept : InstrId → Bool) :
    JumpsMoved p old new accept (p.redirectTargets old new accept).1
      (p.redirectTargets old new accept).2 where
  count := snd_redirectTargets
  jumpSources := jumpSources_redirectTargets hne
  order := order_redirectTargets
  selected id i hi hold haccept := by
    refine ⟨_, firstOccurrences_eraseDups _, ?_⟩
    rw [get?_redirectTargets, hi, Option.map_some, if_pos haccept, Instruction.redirect,
      if_pos hold]
  others id h := by
    rw [get?_redirectTargets]
    cases hi : p.get? id with
    | none => rfl
    | some i =>
      by_cases hold : old ∈ i.targets
      · rw [Option.map_some, h i hi hold]
        rfl
      · rw [Option.map_some, Instruction.redirect_of_notMem hold, ite_self]
  again := redirectTargets_of_filter_eq_nil (filter_jumpSources_redirectTargets hne)
  linked a ha := by
    obtain ⟨hlinks, hcount⟩ := ha.redirectTargets old new accept
    refine ⟨_, congrArg (EStateM.Result.ok · _) hcount, hlinks, ?_⟩
    apply Arena.Change.run_redirectTargets_of_filter_eq_nil
    rw [hlinks.jumpSources, filter_jumpSources_redirectTargets hne]

/-- Jumps to several targets, some of them named more than once, around an empty slot. -/
def repeatedTargets : Program :=
  let jump (targets : List InstrId) : Instruction :=
    { Instruction.goto ⟨1⟩ (.var ⟨"choice", .bool⟩) with targets := targets }
  (ofList [jump [⟨1⟩, ⟨6⟩, ⟨4⟩, ⟨1⟩, ⟨6⟩], .skip, .skip, jump [⟨4⟩, ⟨1⟩],
    .assert (.var ⟨"safe", .bool⟩), jump [⟨1⟩, ⟨1⟩], .endFunction, jump [⟨6⟩, ⟨6⟩]]).erase ⟨2⟩

/-- In two of the jumps the new target meets itself. Of the others one is not accepted and one has
nothing to do with it, so what they name twice is still named twice. -/
theorem redirectTargets_exact_repeatedTargets :
    (⟨1⟩ : InstrId) ≠ ⟨4⟩ ∧
      ∃ q, repeatedTargets.redirectTargets ⟨1⟩ ⟨4⟩ (fun id ↦ id ≠ ⟨5⟩) = (q, 2) ∧
        JumpsMoved repeatedTargets ⟨1⟩ ⟨4⟩ (fun id ↦ id ≠ ⟨5⟩) q 2 ∧
        repeatedTargets.jumpSources ⟨1⟩ = [⟨0⟩, ⟨3⟩, ⟨5⟩] ∧ q.jumpSources ⟨1⟩ = [⟨5⟩] ∧
        q.order.map (fun id ↦ (q.fetch id).targets) =
          [[⟨4⟩, ⟨6⟩], [], [⟨4⟩], [], [⟨1⟩, ⟨1⟩], [], [⟨6⟩, ⟨6⟩]] := by
  have hne : (⟨1⟩ : InstrId) ≠ ⟨4⟩ := by decide
  have hcount : (repeatedTargets.redirectTargets ⟨1⟩ ⟨4⟩ fun id ↦ id ≠ ⟨5⟩).2 = 2 := by decide
  have hexact := redirectTargets_exact hne repeatedTargets fun id ↦ id ≠ ⟨5⟩
  rw [hcount] at hexact
  exact ⟨hne, _, Prod.ext rfl hcount, hexact, by decide, by decide, by decide⟩

end Program

end LoopInduction
