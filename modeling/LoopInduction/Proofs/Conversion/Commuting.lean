import LoopInduction.Proofs.Conversion.Sites

/-!
# Conversions of disjoint sites commute

Where two sites have no instruction in common, what one conversion does around its own instructions
is renamed by the other: jumps to the other head go to what stands in front of it. Since conversions
commute with renamings, so do the two conversions (`Site.converted_comm`), also where one site
begins right behind the exit of the other. Lists of sites in which the inner sites come behind the
outer ones hence give the same listing whenever they are permutations of each other
(`Site.convertedAll_perm`).

## Main definitions

* `Site.Open` : a listing in which some sites are still to be converted.
* `Site.convertedAll` : the listing with some sites converted, one after the other.

## Main results

* `Site.converted_comm`, `Site.convertedAll_perm` : the order does not matter.
* `Site.rename_convertedAll` : other names for the new instructions.
-/

namespace LoopInduction.Site

open Program

variable {p : Program} {s : Setup} {f g : Site p} {n m : Part → InstrId}
  {names names' : InstrId → Part → InstrId} {l mine : Listing} {todo sites : List (Site p)}
  {next : Option InstrId} {e : InstrId × Instruction} {t id : InstrId}

/-! ### Listings in which sites are still to be converted -/

/-- The listing has the instructions of the input and live targets, the names of the new
instructions are not used yet, and right behind an exit stands no exit of a site that the former is
not in. -/
structure Open (names : InstrId → Part → InstrId) (todo : List (Site p)) (l : Listing) : Prop where
  subset : p.order ⊆ l.ids
  live : ∀ e ∈ l, ∀ t ∈ e.2.targets, t ∈ l.ids
  fresh : ∀ f ∈ todo, ∀ a, names f.exit a ∉ l.ids
  successor : ∀ f ∈ todo, ∀ g ∈ todo, successor? l.ids f.exit = some g.exit → f.exit ∈ g.body

theorem Open.of_subset (h : Open names todo l) (hsub : sites ⊆ todo) : Open names sites l where
  subset := h.subset
  live := h.live
  fresh f hf := h.fresh f (hsub hf)
  successor f hf g hg := h.successor f (hsub hf) g (hsub hg)

/-- The exit of a site is not where another conversion writes. -/
def ExitApart (f g : Site p) : Prop :=
  g.exit ≠ f.head ∧ g.exit ≠ f.exit

theorem Open.converted (h : Open names (f :: todo) l) (hinj : Function.Injective2 names)
    (hnew : ∀ x a, names x a ∉ p.order) (hapart : ∀ g ∈ todo, f.ExitApart g) :
    Open names todo (f.converted s (names f.exit) l) where
  subset u hu := mem_ids_converted_of_mem (h.subset hu)
  live := live_converted h.subset h.live
  fresh g hg a hmem := by
    rcases mem_or_exists_of_mem_ids_converted hmem with hmem | ⟨b, hb⟩
    · exact h.fresh g (List.mem_cons_of_mem _ hg) a hmem
    · exact (hapart g hg).2 (hinj hb).1
  successor g hg k hk hnext := by
    obtain ⟨hhead, hexit⟩ := hapart g hg
    rw [ids_converted, successor?_flatMap (around_of_ne hhead hexit)
      (fun _ ↦ List.ne_nil_of_mem self_mem_around) fun x hx hmem ↦ ?_] at hnext
    · obtain ⟨b, hb, hfirst⟩ := Option.bind_eq_some_iff.1 hnext
      rcases eq_or_exists_of_mem_around (List.mem_of_mem_head? hfirst) with rfl | ⟨a, ha⟩
      · exact h.successor g (List.mem_cons_of_mem _ hg) k (List.mem_cons_of_mem _ hk) hb
      · exact absurd (ha ▸ mem_order_of_mem_ids k.exit_mem_ids) (hnew _ _)
    · rcases eq_or_exists_of_mem_around hmem with rfl | ⟨a, ha⟩
      · exact hx rfl
      · exact hnew _ _ (ha ▸ mem_order_of_mem_ids g.exit_mem_ids)

/-! ### Two disjoint sites -/

/-- Of every stretch at most one element is selected. -/
theorem filter_flatMap_eq_map {α β : Type} {l : List α} {F : α → List β} {G : α → β}
    {P : β → Bool} {Q : α → Bool}
    (h : ∀ a ∈ l, (F a).filter P = if Q a then [G a] else []) :
    (l.flatMap F).filter P = (l.filter Q).map G := by
  induction l with
  | nil => rfl
  | cons a l ih =>
    rw [List.flatMap_cons, List.filter_append, h a List.mem_cons_self,
      ih fun b hb ↦ h b (List.mem_cons_of_mem _ hb), List.filter_cons]
    split <;> rfl

theorem enter_of_ne (h : t ≠ g.head) : g.enter n t = t :=
  InstrId.redirect_of_ne h

theorem enter_comm (hheads : f.head ≠ g.head) (hn : n (.front 0) ≠ g.head)
    (hm : m (.front 0) ≠ f.head) : g.enter m ∘ f.enter n = f.enter n ∘ g.enter m := by
  funext t
  rw [Function.comp_apply, Function.comp_apply]
  by_cases htf : t = f.head
  · rw [enter_of_ne fun h ↦ hheads (htf ▸ h), htf, enter, enter, InstrId.redirect_self,
      InstrId.redirect_of_ne hn]
  by_cases htg : t = g.head
  · rw [enter_of_ne htf, htg, enter, enter, InstrId.redirect_self, InstrId.redirect_of_ne hm]
  · rw [enter_of_ne htf, enter_of_ne htg, enter_of_ne htf]

/-- The entry of a site leaves the ids of a disjoint one alone. -/
theorem keptBy_enter (hdisjoint : f.ids.Disjoint g.ids) (hnew : ∀ a, m a ∉ p.order) :
    f.KeptBy (g.enter m) := by
  intro u hu t
  have hhead : u ≠ g.head := fun e ↦ hdisjoint hu (e ▸ mem_ids_of_mem g.head_mem)
  have hfront : m (.front 0) ≠ u := fun e ↦ hnew _ (e ▸ mem_order_of_mem_ids hu)
  rw [enter, InstrId.redirect]
  split
  · next ht => exact iff_of_false hfront fun e ↦ hhead (e ▸ ht)
  · exact .rfl

theorem expand_of_notMem (he : e.1 ∉ g.ids) :
    g.expand s m mine next e = [(e.1, e.2.rename (g.enter m))] := by
  have hhead : e.1 ≠ g.head := fun h ↦ he (h ▸ mem_ids_of_mem g.head_mem)
  have hexit : e.1 ≠ g.exit := fun h ↦ he (h ▸ g.exit_mem_ids)
  rw [expand, if_neg hhead, if_neg hexit, if_neg hexit, change, if_neg hexit,
    if_neg fun h ↦ he (mem_ids_of_mem h)]
  rfl

/-- Entries that are not of a site are renamed by its conversion. -/
theorem flatMap_expand (hl : ∀ x ∈ l.ids, x ∉ g.ids) :
    l.flatMap (g.expand s m mine next) = l.rename (g.enter m) := by
  rw [Listing.rename, List.map_eq_flatMap]
  refine List.flatMap_congr fun e he ↦ ?_
  have hnot : e.1 ∉ g.ids := hl e.1 (List.mem_map_of_mem he)
  have hhead : e.1 ≠ g.head := fun h ↦ hnot (h ▸ mem_ids_of_mem g.head_mem)
  rw [expand_of_notMem hnot, enter_of_ne hhead]

section

variable (hdisjoint : f.ids.Disjoint g.ids) (hnew : ∀ a, m a ∉ p.order)

include hdisjoint hnew

/-- What is copied is renamed by the conversion of a disjoint site. -/
theorem mine_converted : f.mine (g.converted s m l) = (f.mine l).rename (g.enter m) := by
  have hexpand : ∀ e ∈ l, (g.expand s m (g.mine l) (successor? l.ids g.exit) e).filter
      (·.1 ∈ p.kept f.body) =
        if e.1 ∈ p.kept f.body then [(g.enter m e.1, e.2.rename (g.enter m))] else [] := by
    intro e he
    split
    · next hmem =>
      have hkept : e.1 ∈ f.ids := kept_subset_ids _ hmem
      rw [expand_of_notMem (hdisjoint hkept), (keptBy_enter hdisjoint hnew).eq hkept]
      exact List.filter_cons_of_pos (decide_eq_true hmem)
    · next hnot =>
      refine List.filter_eq_nil_iff.2 fun x hx ↦ ?_
      have hx : x.1 ∈ (g.expand s m (g.mine l) (successor? l.ids g.exit) e).ids :=
        List.mem_map_of_mem hx
      rw [ids_expand] at hx
      rw [decide_eq_true_eq]
      rcases eq_or_exists_of_mem_around hx with hx | ⟨a, ha⟩
      · rwa [hx]
      · exact fun hmem ↦ hnew a (ha ▸ mem_order_of_mem_ids (kept_subset_ids _ hmem))
  exact filter_flatMap_eq_map fun e he ↦ by simpa only [decide_eq_true_eq] using hexpand e he

/-- What stands behind an exit is renamed by the conversion of a disjoint site. -/
theorem successor?_converted (hnext : successor? l.ids f.exit ≠ some g.exit) :
    successor? (g.converted s m l).ids f.exit = (successor? l.ids f.exit).map (g.enter m) := by
  have hnot : f.exit ∉ g.ids := hdisjoint f.exit_mem_ids
  have hhead : f.exit ≠ g.head := fun h ↦ hnot (h ▸ mem_ids_of_mem g.head_mem)
  have hexit : f.exit ≠ g.exit := fun h ↦ hnot (h ▸ g.exit_mem_ids)
  rw [ids_converted, successor?_flatMap (around_of_ne hhead hexit)
    (fun _ ↦ List.ne_nil_of_mem self_mem_around) fun x hx hmem ↦ ?_]
  · cases hb : successor? l.ids f.exit with
    | none => rfl
    | some b =>
      rw [Option.bind_some, Option.map_some]
      by_cases hbhead : b = g.head
      · rw [hbhead, head?_around_head, enter, InstrId.redirect_self]
      · have hbexit : b ≠ g.exit := fun h ↦ hnext (h ▸ hb)
        rw [around_of_ne hbhead hbexit, enter_of_ne hbhead, List.head?_cons]
  · rcases eq_or_exists_of_mem_around hmem with h | ⟨a, ha⟩
    · exact hx h.symm
    · exact hnew a (ha ▸ mem_order_of_mem_ids f.exit_mem_ids)

/-- Around the ids of a site it makes no difference when another site is converted. -/
theorem flatMap_expand_comm (hnext : successor? l.ids f.exit ≠ some g.exit)
    (hn : ∀ a, n a ∉ p.order) (hne : ∀ a b, n a ≠ m b)
    (hlive : ∀ e ∈ l, ∀ t ∈ e.2.targets, t ∈ l.ids) (hfresh : ∀ a, m a ∉ l.ids)
    {mine' : Listing} {next' : Option InstrId} (he : e ∈ l) (hmem : e.1 ∈ f.ids) :
    (f.expand s n (f.mine l) (successor? l.ids f.exit) e).flatMap (g.expand s m mine next) =
      (g.expand s m mine' next' e).flatMap (f.expand s n (f.mine (g.converted s m l))
        (successor? (g.converted s m l).ids f.exit)) := by
  have hkept := keptBy_enter hdisjoint hnew
  have hids : ∀ x ∈ (f.expand s n (f.mine l) (successor? l.ids f.exit) e).ids, x ∉ g.ids := by
    intro x hx
    rw [ids_expand] at hx
    rcases eq_or_exists_of_mem_around hx with rfl | ⟨a, rfl⟩
    · exact hdisjoint hmem
    · exact fun h ↦ hn a (mem_order_of_mem_ids h)
  have hnames : g.enter m ∘ n = n := by
    funext a
    exact enter_of_ne fun h ↦ hn a (h ▸ mem_order_of_mem_ids (mem_ids_of_mem g.head_mem))
  -- a target is renamed to an id that is not a target yet
  have hinj : Set.InjOn (g.enter m) {t | t ≠ m (.front 0)} := fun t ht u hu ↦
    InstrId.redirect_inj ht hu
  have htargets : ∀ e ∈ l, ∀ t ∈ e.2.targets, t ≠ m (.front 0) := fun e he t ht h ↦
    hfresh _ (h ▸ hlive e he t ht)
  have hcopies : ∀ e ∈ f.copies s n (f.mine l), ∀ t ∈ e.2.targets, t ≠ m (.front 0) := by
    intro e he t ht
    rcases mem_targets_copies he ht with ⟨e', he', ht⟩ | ht | ⟨u, -, -, rfl⟩
    · exact htargets e' (List.mem_of_mem_filter he') t ht
    · exact fun h ↦ hnew _ (h ▸ mem_order_of_mem_ids ht)
    · exact hne _ _
  rw [flatMap_expand hids, rename_expand hkept hinj (fun e he ↦ mem_body_of_mem_mine he) hcopies
    (htargets e he), hnames, hkept.eq hmem, ← mine_converted hdisjoint hnew,
    ← successor?_converted hdisjoint hnew hnext, expand_of_notMem (hdisjoint hmem),
    List.flatMap_singleton]

end

/-- Two disjoint sites may be converted in either order. -/
theorem converted_comm (hopen : Open names todo l) (hinj : Function.Injective2 names)
    (hnew : ∀ x a, names x a ∉ p.order) (hf : f ∈ todo) (hg : g ∈ todo)
    (hdisjoint : f.ids.Disjoint g.ids) :
    g.converted s (names g.exit) (f.converted s (names f.exit) l) =
      f.converted s (names f.exit) (g.converted s (names g.exit) l) := by
  have hexit : f.exit ≠ g.exit := fun h ↦ hdisjoint f.exit_mem_ids (h ▸ g.exit_mem_ids)
  have hnext : successor? l.ids f.exit ≠ some g.exit := fun h ↦
    hdisjoint f.exit_mem_ids (mem_ids_of_mem (hopen.successor f hf g hg h))
  have hnext' : successor? l.ids g.exit ≠ some f.exit := fun h ↦
    hdisjoint (mem_ids_of_mem (hopen.successor g hg f hf h)) g.exit_mem_ids
  rw [converted, converted, converted, converted, List.flatMap_assoc, List.flatMap_assoc]
  refine List.flatMap_congr fun e he ↦ ?_
  by_cases hef : e.1 ∈ f.ids
  · exact flatMap_expand_comm hdisjoint (hnew _) hnext (hnew _) (fun a b h ↦ hexit (hinj h).1)
      hopen.live (hopen.fresh g hg) he hef
  by_cases heg : e.1 ∈ g.ids
  · exact (flatMap_expand_comm (List.disjoint_comm.1 hdisjoint) (hnew _) hnext' (hnew _)
      (fun a b h ↦ hexit (hinj h).1.symm) hopen.live (hopen.fresh f hf) he heg).symm
  have hheads : f.head ≠ g.head := fun h ↦
    hdisjoint (mem_ids_of_mem f.head_mem) (h ▸ mem_ids_of_mem g.head_mem)
  have hname : ∀ x, ∀ k : Site p, names x (.front 0) ≠ k.head := fun x k h ↦
    hnew x _ (h ▸ mem_order_of_mem_ids (mem_ids_of_mem k.head_mem))
  have hentry : ∀ (k : Site p) (i : Instruction), e.1 ∉ k.ids → ((e.1, i) : _ × _).1 ∉ k.ids :=
    fun _ _ h ↦ h
  rw [expand_of_notMem hef, expand_of_notMem heg, List.flatMap_singleton, List.flatMap_singleton,
    expand_of_notMem (hentry g _ heg), expand_of_notMem (hentry f _ hef),
    Instruction.rename_rename, Instruction.rename_rename,
    enter_comm hheads (hname _ g) (hname _ f)]

/-! ### Any number of sites -/

/-- The listing with some sites converted, one after the other. -/
def convertedAll (s : Setup) (names : InstrId → Part → InstrId) (l : Listing)
    (sites : List (Site p)) : Listing :=
  sites.foldl (fun l f ↦ f.converted s (names f.exit) l) l

theorem convertedAll_cons (l : Listing) (f : Site p) (sites : List (Site p)) :
    convertedAll s names l (f :: sites) =
      convertedAll s names (f.converted s (names f.exit) l) sites := rfl

theorem convertedAll_concat (l : Listing) (sites : List (Site p)) (f : Site p) :
    convertedAll s names l (sites ++ [f]) =
      f.converted s (names f.exit) (convertedAll s names l sites) := by
  rw [convertedAll, List.foldl_append]
  rfl

/-- Only the names for the sites that are converted matter. -/
theorem convertedAll_congr (h : ∀ f ∈ sites, names f.exit = names' f.exit) :
    convertedAll s names l sites = convertedAll s names' l sites := by
  induction sites generalizing l with
  | nil => rfl
  | cons f sites ih =>
    rw [convertedAll_cons, convertedAll_cons, h f List.mem_cons_self,
      ih fun g hg ↦ h g (List.mem_cons_of_mem _ hg)]

theorem mem_ids_convertedAll_of_mem (h : id ∈ l.ids) : id ∈ (convertedAll s names l sites).ids := by
  induction sites generalizing l with
  | nil => exact h
  | cons f sites ih => exact ih (mem_ids_converted_of_mem h)

theorem live_convertedAll (hsub : p.order ⊆ l.ids)
    (hlive : ∀ e ∈ l, ∀ t ∈ e.2.targets, t ∈ l.ids) :
    ∀ e ∈ convertedAll s names l sites, ∀ t ∈ e.2.targets,
      t ∈ (convertedAll s names l sites).ids := by
  induction sites generalizing l with
  | nil => exact hlive
  | cons f sites ih =>
    exact ih (fun u hu ↦ mem_ids_converted_of_mem (hsub hu)) (live_converted hsub hlive)

/-- What is written for a site is there in the end. -/
theorem name_mem_ids_convertedAll {a : Part} (hl : p.order ⊆ l.ids) (hf : f ∈ sites)
    (ha : a ∈ f.parts s) : names f.exit a ∈ (convertedAll s names l sites).ids := by
  induction sites generalizing l with
  | nil => cases hf
  | cons g sites ih =>
    rw [convertedAll_cons]
    rcases List.mem_cons.1 hf with rfl | hf
    · exact mem_ids_convertedAll_of_mem (name_mem_ids_converted hl ha)
    · exact ih (fun u hu ↦ mem_ids_converted_of_mem (hl hu)) hf

section

variable (hinj : Function.Injective2 names) (hnew : ∀ x a, names x a ∉ p.order)

include hinj hnew

/-- A site may be converted before others that are disjoint from it. -/
theorem convertedAll_middle {rest : List (Site p)} (hopen : Open names (sites ++ f :: rest) l)
    (hapart : (sites ++ f :: rest).Pairwise ExitApart)
    (hdisjoint : ∀ g ∈ sites, g.ids.Disjoint f.ids) :
    convertedAll s names l (sites ++ f :: rest) = convertedAll s names l (f :: sites ++ rest) := by
  induction sites generalizing l with
  | nil => rfl
  | cons g sites ih =>
    obtain ⟨hg, hsites⟩ := List.pairwise_cons.1 hapart
    rw [List.cons_append, convertedAll_cons, ih (hopen.converted hinj hnew hg) hsites
      fun k hk ↦ hdisjoint k (List.mem_cons_of_mem _ hk), List.cons_append, convertedAll_cons,
      converted_comm hopen hinj hnew List.mem_cons_self (by simp)
        (hdisjoint g List.mem_cons_self)]
    rfl

/-- Two orders in which a site never comes before one that it lies inside of give the same. -/
theorem convertedAll_perm {later : Site p → Site p → Prop}
    (hexit : ∀ f g, later f g → f.ExitApart g)
    (hdisjoint : ∀ f g, later f g → later g f → f.ids.Disjoint g.ids)
    (hperm : sites.Perm todo) (hsites : sites.Pairwise later) (htodo : todo.Pairwise later)
    (hopen : Open names sites l) :
    convertedAll s names l sites = convertedAll s names l todo := by
  induction sites generalizing todo l with
  | nil => rw [hperm.nil_eq]
  | cons f sites ih =>
    obtain ⟨hf, hsites⟩ := List.pairwise_cons.1 hsites
    obtain ⟨front, back, rfl⟩ := List.append_of_mem (hperm.subset List.mem_cons_self)
    have hperm' : sites.Perm (front ++ back) := (hperm.trans List.perm_middle).cons_inv
    obtain ⟨hfront, hback, hall⟩ := List.pairwise_append.1 htodo
    have hmiddle : ∀ g ∈ front, g.ids.Disjoint f.ids := fun g hg ↦
      hdisjoint g f (hall g hg f List.mem_cons_self)
        (hf g (hperm'.symm.subset (List.mem_append_left _ hg)))
    rw [convertedAll_middle hinj hnew (hopen.of_subset hperm.symm.subset) (htodo.imp (hexit _ _))
      hmiddle, List.cons_append, convertedAll_cons, convertedAll_cons]
    refine ih hperm' hsites ?_ (hopen.converted hinj hnew fun g hg ↦ hexit f g (hf g hg))
    exact htodo.sublist (List.Sublist.append_left (List.sublist_cons_self _ _) _)

end

/-! ### Other names -/

section

variable {μ : InstrId → InstrId} (hμ : ∀ f : Site p, f.KeptBy μ)
  (hnames : ∀ x, names' x = μ ∘ names x)

include hμ hnames

theorem map_ids_convertedAll {l' : Listing} (hl : l.ids.map μ = l'.ids) :
    (convertedAll s names l sites).ids.map μ = (convertedAll s names' l' sites).ids := by
  induction sites generalizing l l' with
  | nil => exact hl
  | cons f sites ih =>
    rw [convertedAll_cons, convertedAll_cons, hnames]
    exact ih (map_ids_converted (hμ f) s _ hl)

/-- With other names for the new instructions the listing is renamed. -/
theorem rename_convertedAll (hsub : p.order ⊆ l.ids)
    (hlive : ∀ e ∈ l, ∀ t ∈ e.2.targets, t ∈ l.ids)
    (hinj : Set.InjOn μ {t | t ∈ (convertedAll s names l sites).ids}) :
    (convertedAll s names l sites).rename μ = convertedAll s names' (l.rename μ) sites := by
  induction sites generalizing l with
  | nil => rfl
  | cons f sites ih =>
    have hold : ∀ t ∈ (f.converted s (names f.exit) l).ids,
        t ∈ (convertedAll s names l (f :: sites)).ids := fun t ↦ mem_ids_convertedAll_of_mem
    have hlive' := live_converted (s := s) (n := names f.exit) (f := f) hsub hlive
    have hcopies : ∀ e ∈ f.copies s (names f.exit) (f.mine l),
        e ∈ f.converted s (names f.exit) l := by
      intro e he
      have hexit := hsub (mem_order_of_mem_ids f.exit_mem_ids)
      obtain ⟨x, hx, hxexit⟩ := List.mem_map.1 hexit
      exact List.mem_flatMap.2 ⟨x, hx, mem_expand.2 (.inr (.inl ⟨hxexit, he⟩))⟩
    rw [convertedAll_cons, convertedAll_cons, hnames,
      ih (fun u hu ↦ mem_ids_converted_of_mem (hsub hu)) hlive' hinj]
    congr 1
    refine rename_converted (hμ f) hinj (fun e he t ht ↦ ?_)
      fun e he t ht ↦ hold t (hlive' e (hcopies e he) t ht)
    exact hold t (mem_ids_converted_of_mem (hlive e he t ht))

end

end LoopInduction.Site
