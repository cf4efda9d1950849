import LoopInduction.Proofs.Conversion.Realizing
import Mathlib.Data.Nat.Pairing
import Mathlib.Logic.Function.Basic

/-!
# Functions that are converted, as rewritings of listings

Converting the loops of a function comes to rewriting its listing, one site after the other, and the
reports are read off the sites and the names (`exists_rewritten_of_run_convertFunction`). Of another
rewriting of the same sites it differs by a renaming that leaves the input alone
(`Rewritten.exists_rename`). So names may be chosen that do not depend on the order in which the
sites come.

## Main definitions

* `Site.freshNames` : names for what is new that no instruction of the input has.
* `Program.isConditional` : the loop has a conditional jump.
* `Rewritten` : what is left of a function, and what is reported of its loops.

## Main results

* `Site.exists_renaming` : all names are renamed from the same ones.
* `Site.convertedAll_eq_of_perm` : the sites may come in any order in which outer ones come first.
* `Rewritten.exists_rename` : other names for the new instructions.
-/

namespace LoopInduction

open Program

/-! ### Names -/

/-- A number for everything that a new instruction may be for. -/
def Part.code : Part → Nat × Nat
  | front k => (0, k)
  | copy u => (1, u.index)
  | after => (2, 0)
  | jump => (3, 0)
  | marker => (4, 0)

theorem Part.code_injective : Function.Injective Part.code := by
  intro a b h
  cases a <;> cases b <;> simp_all [code, InstrId.ext_iff]

namespace Site

variable {p : Program} {s : Setup} {f g : Site p} {names : InstrId → Part → InstrId}
  {sites sites' : List (Site p)}

/-- Names that no instruction of the program has, different ones for different sites. -/
def freshNames (p : Program) (x : InstrId) (a : Part) : InstrId :=
  ⟨p.slots.size + Nat.pair x.index (Nat.pair a.code.1 a.code.2)⟩

theorem freshNames_injective (p : Program) : Function.Injective2 (freshNames p) := by
  intro x y a b h
  simp only [freshNames, InstrId.mk.injEq, Nat.add_left_cancel_iff, Nat.pair_eq_pair] at h
  exact ⟨InstrId.ext h.1, Part.code_injective (Prod.ext h.2.1 h.2.2)⟩

theorem freshNames_notMem (p : Program) (x : InstrId) (a : Part) : freshNames p x a ∉ p.order :=
  fun h ↦ absurd (index_lt_of_mem h) (by simp [freshNames])

/-- Any other names are those of `freshNames` under a renaming that leaves the program alone. -/
theorem exists_renaming (hnew : ∀ x a, names x a ∉ p.order) : ∃ μ, (∀ id ∈ p.order, μ id = id) ∧
    (∀ x, names x = μ ∘ freshNames p x) ∧ ∀ f : Site p, f.KeptBy μ := by
  have hinj : Function.Injective (Function.uncurry (freshNames p)) :=
    (freshNames_injective p).uncurry
  let μ : InstrId → InstrId :=
    Function.extend (Function.uncurry (freshNames p)) (Function.uncurry names) id
  have happly : ∀ x a, μ (freshNames p x a) = names x a := fun x a ↦
    hinj.extend_apply (Function.uncurry names) id (x, a)
  have hself : ∀ t, (¬ ∃ x a, freshNames p x a = t) → μ t = t := fun t ht ↦
    Function.extend_apply' _ _ _ fun ⟨⟨x, a⟩, e⟩ ↦ ht ⟨x, a, e⟩
  refine ⟨μ, fun id hid ↦ hself id ?_, fun x ↦ funext fun a ↦ (happly x a).symm,
    fun f u hu t ↦ ?_⟩
  · rintro ⟨x, a, rfl⟩
    exact freshNames_notMem p x a hid
  · have hu : u ∈ p.order := mem_order_of_mem_ids hu
    by_cases ht : ∃ x a, freshNames p x a = t
    · obtain ⟨x, a, rfl⟩ := ht
      rw [happly]
      exact iff_of_false (fun e ↦ hnew x a (e ▸ hu)) fun e ↦ freshNames_notMem p x a (e ▸ hu)
    · rw [hself t ht]

/-! ### Sites that are to come -/

theorem position_head_lt (f : Site p) : p.position f.head < p.position f.exit :=
  ((mem_range_iff f.range).1 f.head_mem).2.2

theorem exitApart_of_later (h : p.Later f.toLoop g.toLoop) : f.ExitApart g := by
  have hf := f.position_head_lt
  have hg := g.position_head_lt
  rw [Later, Before, Before, Within] at h
  refine ⟨fun e ↦ ?_, fun e ↦ ?_⟩
  · rw [e] at h hg
    omega
  · rw [e] at h hg
    omega

/-- Sites of which either may come later are disjoint. -/
theorem disjoint_of_later (h : p.Later f.toLoop g.toLoop) (h' : p.Later g.toLoop f.toLoop) :
    f.ids.Disjoint g.ids := by
  rcases h.subset_or_disjoint f.range g.range with hin | hdisjoint
  · rcases h'.subset_or_disjoint g.range f.range with hin' | hdisjoint'
    · exact absurd (hin _ (mem_ids_of_mem (hin' _ f.exit_mem_ids))) (notMem_of_range f.range)
    · exact fun u hu hu' ↦ hdisjoint' u hu hu'
  · exact fun u hu hu' ↦ hdisjoint u hu' hu

theorem open_entries (hsound : p.Sound) (hnew : ∀ x a, names x a ∉ p.order)
    (sites : List (Site p)) : Open names sites p.entries where
  subset u hu := (ids_entries p).symm ▸ hu
  live e he t ht := (ids_entries p).symm ▸
    hsound.targetsLive e.1 e.2 (mem_entries_iff.1 he) t ht
  fresh f _ a := (ids_entries p).symm ▸ hnew f.exit a
  successor f _ g _ hnext := by
    rw [ids_entries, ← next?_eq_successor?] at hnext
    have hexit : g.exit ∈ g.ids.tail := by
      rw [ids, List.tail_append_of_ne_nil (List.ne_nil_of_mem g.head_mem)]
      exact List.mem_append_right _ List.mem_cons_self
    have hmem := mem_dropLast_of_next? (isInfix_of_range g.range) hexit hnext
    rwa [List.dropLast_concat] at hmem

theorem convertedAll_eq_of_perm (s : Setup) (hsound : p.Sound) (hperm : sites.Perm sites')
    (hsites : sites.Pairwise fun f g ↦ p.Later f.toLoop g.toLoop)
    (hsites' : sites'.Pairwise fun f g ↦ p.Later f.toLoop g.toLoop) :
    convertedAll s (freshNames p) p.entries sites =
      convertedAll s (freshNames p) p.entries sites' :=
  convertedAll_perm (freshNames_injective p) (freshNames_notMem p)
    (fun _ _ ↦ exitApart_of_later) (fun _ _ ↦ disjoint_of_later) hperm hsites hsites'
    (open_entries hsound (freshNames_notMem p) sites)

theorem toLoop_injective : Function.Injective (toLoop (p := p)) := by
  rintro ⟨l, body, branch, hrange, hbranch⟩ ⟨m, body', branch', hrange', hbranch'⟩ e
  cases e
  cases hrange.symm.trans hrange'
  cases hbranch.symm.trans hbranch'
  rfl

end Site

/-! ### Functions -/

/-- The loop has a conditional jump. -/
def Program.isConditional (p : Program) (l : Loop) : Bool :=
  match p.loopCondition l.head l.exit with
  | .ok (some _) => true
  | _ => false

theorem Site.isConditional {p : Program} (f : Site p) : p.isConditional f.toLoop = true := by
  rw [Program.isConditional, loopCondition_eq f.range, f.branch_eq]
  rfl

/-- The loops have been dealt with by rewriting the listing of `p`. -/
structure Rewritten (s : Setup) (name : String) (p : Program) (names : InstrId → Part → InstrId)
    (loops : List Loop) (vs : List Verdict) (sites : List (Site p)) (q : Program) : Prop where
  fresh : ∀ x a, names x a ∉ p.order
  sound : q.Sound
  entries : q.entries = Site.convertedAll s names p.entries sites
  map_toLoop : sites.map Site.toLoop = loops.filter p.isConditional
  converted : vs.filterMap Verdict.converted? = sites.map fun f ↦ f.summary s (names f.exit) name
  skipped : vs.filterMap Verdict.skipped? = (loops.filter fun l ↦ !p.isConditional l).map fun l ↦
    { function := name, head := l.head, exit := l.exit }

namespace Rewritten

variable {s : Setup} {name : String} {p q r : Program} {names : InstrId → Part → InstrId}
  {loops : List Loop} {vs : List Verdict} {sites : List (Site p)}

theorem start (hsound : p.Sound) : Rewritten s name p (Site.freshNames p) [] [] [] p where
  fresh := Site.freshNames_notMem p
  sound := hsound
  entries := rfl
  map_toLoop := rfl
  converted := rfl
  skipped := rfl

theorem skip {m : Loop} {w : Warning} (h : Rewritten s name p names loops vs sites q)
    (hm : p.isConditional m = false) : Rewritten s name p names (loops ++ [m])
      (vs ++ [.skipped { function := name, head := m.head, exit := m.exit } w]) sites q where
  fresh := h.fresh
  sound := h.sound
  entries := h.entries
  map_toLoop := by simp [h.map_toLoop, hm]
  converted := by simp [h.converted]
  skipped := by simp [h.skipped, hm]

/-- The next site gets the names that its conversion gives. -/
theorem convert {f : Site p} {condition : LoopCondition} {points : Option IterationPoints}
    {assumption : Option InstrId} {p₁ p₂ p₃ : Program}
    (h : Rewritten s name p names loops vs sites q) (hexit : ∀ g ∈ sites, g.exit ≠ f.exit)
    (hconv : f.Conversion s condition points assumption q p₁ p₂ p₃ r) (hr : r.Sound) :
    ∃ names', Rewritten s name p names' (loops ++ [f.toLoop])
      (vs ++ [.converted
        { function := name, head := f.head, exit := f.exit, branch := some condition.branch,
          points := points, assumption := assumption }]) (sites ++ [f]) r := by
  obtain ⟨n, hn, hpoints, hassumption⟩ := hconv.exists_named
  have hself : Function.update names f.exit n f.exit = n := Function.update_self ..
  have hold : ∀ g ∈ sites, Function.update names f.exit n g.exit = names g.exit := fun g hg ↦
    Function.update_of_ne (hexit g hg) ..
  have hsummaries : sites.map (fun g ↦ g.summary s (Function.update names f.exit n g.exit) name) =
      sites.map fun g ↦ g.summary s (names g.exit) name :=
    List.map_congr_left fun g hg ↦ by rw [hold g hg]
  have hsummary : f.summary s n name =
      { function := name, head := f.head, exit := f.exit, branch := some condition.branch,
        points := points, assumption := assumption } := by
    rw [Site.summary, hpoints, hassumption, hconv.branch_eq]
  refine ⟨Function.update names f.exit n, fun x a ↦ ?_, hr, ?_, ?_, ?_, ?_⟩
  · by_cases hx : x = f.exit
    · rw [hx, hself]
      exact hn.fresh a
    · rw [Function.update_of_ne hx]
      exact h.fresh x a
  · rw [Site.convertedAll_concat, hself, Site.convertedAll_congr hold, ← h.entries]
    exact hconv.entries_eq hn
  · simp [h.map_toLoop, f.isConditional]
  · rw [List.map_append, hsummaries, List.map_singleton, hself, hsummary, List.filterMap_append,
      h.converted]
    rfl
  · simp [h.skipped, f.isConditional]

/-- With other names it is the same up to a renaming that leaves the input alone. -/
theorem exists_rename (h : Rewritten s name p names loops vs sites q) (hsound : p.Sound) :
    ∃ μ, (∀ id ∈ p.order, μ id = id) ∧ (∀ x, names x = μ ∘ Site.freshNames p x) ∧
      Set.InjOn μ {id | id ∈ (Site.convertedAll s (Site.freshNames p) p.entries sites).ids} ∧
      q.entries = (Site.convertedAll s (Site.freshNames p) p.entries sites).rename μ := by
  obtain ⟨μ, hfixed, hnames, hkept⟩ := Site.exists_renaming h.fresh
  have hopen := Site.open_entries hsound (Site.freshNames_notMem p) sites
  have hcongr : Listing.rename μ p.entries = Listing.rename id p.entries :=
    Listing.rename_congr (fun id hid ↦ hfixed id (ids_entries p ▸ hid)) hopen.live
  have hself : Listing.rename μ p.entries = p.entries := hcongr.trans Listing.rename_id
  have hids : (Site.convertedAll s (Site.freshNames p) p.entries sites).ids.map μ = q.order := by
    rw [← ids_entries q, h.entries]
    exact Site.map_ids_convertedAll hkept hnames (by rw [← Listing.ids_rename, hself])
  have hμ : Set.InjOn μ
      {id | id ∈ (Site.convertedAll s (Site.freshNames p) p.entries sites).ids} :=
    fun a ha b hb ↦ List.inj_on_of_nodup_map (hids ▸ q.order_nodup) ha hb
  refine ⟨μ, hfixed, hnames, hμ, ?_⟩
  rw [h.entries, Site.rename_convertedAll hkept hnames hopen.subset hopen.live hμ, hself]

end Rewritten

/-- Converting the loops of a function is rewriting its listing. -/
theorem exists_rewritten_of_run_convertFunction {s : Setup} {discovery : Discovery} {name : String}
    {p q : Program} {vs : List Verdict} (hclean : p.Clean) (hsound : p.Sound)
    (hapart : (discovery name p).Pairwise p.Apart)
    (hrun : (convertFunction s discovery name).run p = .ok vs q) :
    ∃ names sites, Rewritten s name p names (p.turns (discovery name p)) vs sites q := by
  obtain ⟨pairs, hloops, hverdicts, -, h⟩ := invariant_of_run_convertFunction
    (I := fun done q ↦ ∃ names sites,
      Rewritten s name p names (done.map Prod.fst) (done.map Prod.snd) sites q)
    hclean hapart hrun ⟨_, _, .start hsound⟩ fun done m todo r v t _ hdone hpending hstep hd h ↦ by
      obtain ⟨names, sites, h⟩ := h
      have hconvert := Edit.run_of_run_atLoop hstep
      rw [List.map_append, List.map_append]
      cases hd with
      | skipped =>
        have hnone := hpending.loopCondition_eq_none (Edit.loopCondition_of_run_skipped hconvert)
        obtain ⟨-, rfl, -⟩ := Edit.eq_of_run_skipped hconvert
        exact ⟨names, sites, h.skip (by rw [isConditional, hnone])⟩
      | converted hcond hconv =>
        obtain ⟨hrange, hbranch⟩ := hpending.find?_of_hasCondition hcond
        let f : Site p := ⟨m, _, _, hrange, hbranch⟩
        have hexit : ∀ g ∈ sites, g.exit ≠ f.exit := by
          intro g hg
          have hmem : g.toLoop ∈ done.map Prod.fst :=
            List.mem_of_mem_filter (h.map_toLoop ▸ List.mem_map_of_mem hg)
          have hlater : p.Later g.toLoop f.toLoop := (hdone _ hmem).2
          exact (Site.exitApart_of_later hlater).2.symm
        obtain ⟨names', h'⟩ := h.convert (f := f) hexit
          ⟨hconv, hpending.extension, hcond, rfl, h.sound⟩
          ((Edit.ends_convertLoop.of_run_ok hconvert).sound h.sound)
        exact ⟨names', _, h'⟩
  rw [hloops, hverdicts] at h
  exact h

end LoopInduction
