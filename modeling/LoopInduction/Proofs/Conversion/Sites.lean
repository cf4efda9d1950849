import LoopInduction.Proofs.Conversion.Success
import LoopInduction.Proofs.Program.Arena
import LoopInduction.Proofs.Program.Renaming

/-!
# Conversions as rewritings of listings

Everything that the conversion of a loop does to the instructions of a program can be said without
the program, once the ids of the new instructions have names: every entry of the listing is replaced
by a stretch around it, and what stands in the stretch depends on the loop as it was in the input,
on the entries that are copied and on the id behind the exit. A loop of the input with a conditional
jump is a *site*, and the names say what a new instruction is for.

Such a rewriting commutes with every renaming that leaves the ids of the loop alone
(`Site.rename_converted`), the names being renamed too.

## Main definitions

* `Part` : what a new instruction is for.
* `Site` : a loop of the input that is converted.
* `Site.converted` : the listing with the site converted.

## Main results

* `Site.rename_expand`, `Site.rename_converted` : renaming a listing before or after a conversion.
* `Site.ids_converted` : the ids of the listing, with those of the new instructions.
-/

namespace LoopInduction

open Program

/-! ### The id behind another one -/

theorem mem_of_successor? {ids : List InstrId} {id b : InstrId} (h : successor? ids id = some b) :
    b ∈ ids :=
  ((List.tail_sublist _).trans (List.dropWhile_sublist _)).subset (List.mem_of_mem_head? h)

theorem successor?_map {ids : List InstrId} {id : InstrId} {ρ : InstrId → InstrId}
    (h : ∀ t, ρ t = id ↔ t = id) : successor? (ids.map ρ) id = (successor? ids id).map ρ := by
  have hp : (fun t ↦ decide (t ≠ id)) ∘ ρ = fun t ↦ decide (t ≠ id) := by
    funext t
    simp only [Function.comp_apply, ne_eq, h]
  rw [successor?, List.dropWhile_map, hp, ← List.map_tail, List.head?_map, successor?]

/-- If every id becomes a stretch of ids, the beginning of the next stretch comes next. -/
theorem successor?_flatMap {id : InstrId} {f : InstrId → List InstrId} (hid : f id = [id])
    (hne : ∀ x, f x ≠ []) (hnot : ∀ x, x ≠ id → id ∉ f x) (ids : List InstrId) :
    successor? (ids.flatMap f) id = (successor? ids id).bind fun x ↦ (f x).head? := by
  induction ids with
  | nil => rfl
  | cons x ids ih =>
    rw [List.flatMap_cons]
    by_cases hx : x = id
    · subst hx
      rw [hid, successor?, successor?, List.singleton_append, List.dropWhile_cons_of_neg (by simp),
        List.dropWhile_cons_of_neg (by simp), List.tail_cons, List.tail_cons]
      cases ids with
      | nil => rfl
      | cons y ids => rw [List.flatMap_cons, List.head?_append_of_ne_nil _ (hne y)]; rfl
    · have hall : ∀ t ∈ f x, decide (t ≠ id) = true := fun t ht ↦
        decide_eq_true fun e : t = id ↦ hnot x hx (e ▸ ht)
      rw [successor?, List.dropWhile_append_of_pos hall, ← successor?, ih, successor?, successor?,
        List.dropWhile_cons_of_pos (by simpa using hx)]

/-! ### Sites -/

/-- What an instruction that a conversion writes is for. -/
inductive Part
  /-- One of the instructions in front of the head. -/
  | front (k : Nat)
  /-- The copy of an instruction of the body. -/
  | copy (u : InstrId)
  /-- The assumption behind the exit. -/
  | after
  /-- The jump over the marker. -/
  | jump
  | marker
  deriving DecidableEq

/-- A loop with a conditional jump. -/
structure Site (p : Program) extends Loop where
  body : List InstrId
  branch : InstrId
  range : p.range head exit = .ok body
  branch_eq : body.find? (fun id ↦ (p.fetch id).isConditionalJump) = some branch

namespace Site

variable {p : Program} (s : Setup) (f : Site p) (n : Part → InstrId)

/-- The ids of the loop, its exit included. -/
def ids : List InstrId :=
  f.body ++ [f.exit]

/-- The condition under which the loop is left or goes on. -/
def guard : Expr :=
  (p.fetch f.branch).guard

/-- What stands in front of the head. -/
def fronts : Listing :=
  (scaffoldBlock s f.toLoop (p.fetch f.head) f.guard).zipIdx.map fun x ↦ (n (.front x.2), x.1)

/-- The copy of an entry. -/
def copyOf (e : InstrId × Instruction) : InstrId × Instruction :=
  (n (.copy e.1), { e.2.duplicate with
    targets := (e.2.targets.map
      (p.copyTarget (p.copied f.body) f.exit (n ∘ Part.copy))).eraseDups })

/-- The entries whose copies stay. -/
def mine (l : Listing) : Listing :=
  l.filter (·.1 ∈ p.kept f.body)

/-- What stands in front of the exit. -/
def copies (mine : Listing) : Listing :=
  if s.config.duplicateBody then mine.map (f.copyOf n) else []

/-- The assumption behind the exit. -/
def assumption : Instruction :=
  (Instruction.assume (s.builder.negate f.guard.normalized)).scaffoldAt (p.fetch f.exit)

/-- The jump over the marker. -/
def jump (next : Option InstrId) : Instruction :=
  { (Instruction.goto f.exit s.builder.truth).scaffoldAt (p.fetch f.exit) with
    targets := next.toList }

/-- What stands behind the exit. -/
def tail (next : Option InstrId) : Listing :=
  (if s.config.assumesAfter then [(n .after, f.assumption s)] else []) ++
    (if s.config.duplicateBody ∧ (p.fetch f.exit).isAlwaysTaken = false then
      [(n .jump, f.jump s next)] else []) ++
        if s.config.duplicateBody then
          [(n .marker, Instruction.skip.scaffoldAt (p.fetch f.exit))] else []

/-- The branch leaves the loop through the assumption. -/
def leave (i : Instruction) : Instruction :=
  match i.targets.find? fun t ↦ t ≠ f.exit ∧ t ∉ f.body with
  | none => i
  | some t => i.rename (InstrId.redirect t (n .after))

/-- What becomes of an instruction of the body, but for assertions. -/
def stay (id : InstrId) (i : Instruction) : Instruction :=
  if s.config.assumesAfter ∧ id = f.branch then f.leave n i else i

/-- What becomes of an instruction of the body. -/
def inside (id : InstrId) (i : Instruction) : Instruction :=
  if s.config.convertAsserts ∧ i.isSourceAssertion then { f.stay s n id i with kind := .assume }
  else f.stay s n id i

/-- Where the jumps to an id go once the loop is entered through what stands in front of it. -/
def enter : InstrId → InstrId :=
  InstrId.redirect f.head (n (.front 0))

/-- What becomes of the instruction of an entry. -/
def change (e : InstrId × Instruction) : Instruction :=
  if e.1 = f.exit then { e.2 with targets := [f.head] }
  else if e.1 ∈ f.body then f.inside s n e.1 e.2
  else e.2.rename (f.enter n)

/-- What becomes of an entry, and what is written around it. -/
def expand (mine : Listing) (next : Option InstrId) (e : InstrId × Instruction) : Listing :=
  (if e.1 = f.head then f.fronts s n else []) ++
    (if e.1 = f.exit then f.copies s n mine else []) ++
      (e.1, f.change s n e) :: if e.1 = f.exit then f.tail s n next else []

/-- The listing with the site converted. -/
def converted (l : Listing) : Listing :=
  l.flatMap (f.expand s n (f.mine l) (successor? l.ids f.exit))

/-- The renaming neither renames an id of the loop nor gives one to another instruction. -/
def KeptBy (ρ : InstrId → InstrId) : Prop :=
  ∀ u ∈ f.ids, ∀ t, ρ t = u ↔ t = u

/-! ### Renaming -/

variable {s f n} {ρ : InstrId → InstrId} {S : Set InstrId} {u t : InstrId} {i : Instruction}
  {l mine : Listing} {next : Option InstrId} {e : InstrId × Instruction} {us : List InstrId}

theorem branch_mem (f : Site p) : f.branch ∈ f.body :=
  List.mem_of_find?_eq_some f.branch_eq

theorem head_mem (f : Site p) : f.head ∈ f.body :=
  List.mem_of_mem_head? (head?_of_range f.range (List.ne_nil_of_mem f.branch_mem))

theorem mem_ids_of_mem (hu : u ∈ f.body) : u ∈ f.ids :=
  List.mem_append_left _ hu

theorem exit_mem_ids (f : Site p) : f.exit ∈ f.ids :=
  List.mem_append_right _ List.mem_cons_self

theorem mem_order_of_mem_ids (hu : u ∈ f.ids) : u ∈ p.order :=
  ((mem_range_append_iff f.range).1 hu).1

theorem mem_body_of_mem_kept (hu : u ∈ p.kept f.body) : u ∈ f.body :=
  (mem_copied.1 (mem_kept.1 hu).1).1

theorem kept_subset_ids : ∀ u ∈ p.kept f.body, u ∈ f.ids := fun _ hu ↦
  mem_ids_of_mem (mem_body_of_mem_kept hu)

theorem isSourceAssertion_stay (u : InstrId) (i : Instruction) :
    (f.stay s n u i).isSourceAssertion = i.isSourceAssertion := by
  rw [stay, leave]
  split
  · split <;> rfl
  · rfl

/-- A jump of a copy goes to a copy or to the exit, or to where it went before. -/
theorem mem_targets_copyOf (ht : t ∈ (f.copyOf n e).2.targets) :
    t ∈ e.2.targets ∨ t = f.exit ∨ ∃ u ∈ p.kept f.body, t = n (.copy u) := by
  obtain ⟨v, hv, rfl⟩ := List.mem_map.1 (List.mem_eraseDups.1 ht)
  obtain ⟨-, hcopy⟩ | ⟨-, hcopy | ⟨u, hu, hcopy⟩⟩ :=
    Unwound.copyTarget_cases p f.body f.exit (n ∘ Part.copy) v
  · exact .inl (hcopy.symm ▸ hv)
  · exact .inr (.inl hcopy)
  · exact .inr (.inr ⟨u, hu, hcopy⟩)

section

variable (hρ : f.KeptBy ρ)

include hρ

theorem KeptBy.eq (hu : u ∈ f.ids) : ρ u = u :=
  (hρ u hu u).2 rfl

/-- What is renamed is among instructions of the loop only if it is one of them. -/
theorem KeptBy.mem_iff (hus : ∀ u ∈ us, u ∈ f.ids) : ρ t ∈ us ↔ t ∈ us := by
  constructor
  · intro h
    exact (hρ _ (hus _ h) t).1 rfl ▸ h
  · intro h
    exact (hρ.eq (hus _ h)).symm ▸ h

theorem copyTarget_rename (t : InstrId) :
    p.copyTarget (p.copied f.body) f.exit ((ρ ∘ n) ∘ Part.copy) (ρ t) =
      ρ (p.copyTarget (p.copied f.body) f.exit (n ∘ Part.copy) t) := by
  have hcopied : ∀ u ∈ p.copied f.body, u ∈ f.ids := fun u hu ↦
    mem_ids_of_mem (mem_copied.1 hu).1
  by_cases ht : t ∈ p.copied f.body
  · rw [hρ.eq (hcopied t ht), Program.copyTarget, Program.copyTarget, if_pos ht, if_pos ht]
    cases ((p.copied f.body).dropWhile (· ≠ t)).find? fun id ↦ !(p.fetch id).isSkip with
    | none => exact (hρ.eq f.exit_mem_ids).symm
    | some u => rfl
  · rw [copyTarget_of_notMem ht, copyTarget_of_notMem ((hρ.mem_iff hcopied).not.2 ht)]

omit hρ in
theorem rename_fronts : (f.fronts s n).rename ρ = f.fronts s (ρ ∘ n) := by
  rw [fronts, fronts, Listing.rename, List.map_map]
  refine List.map_congr_left fun x hx ↦ ?_
  have hblock := List.fst_mem_of_mem_zipIdx hx
  rw [Function.comp_apply,
    Instruction.rename_of_targets_eq_nil (targets_of_mem_scaffoldBlock hblock)]
  rfl

omit hρ in
theorem rename_tail : (f.tail s n next).rename ρ = f.tail s (ρ ∘ n) (next.map ρ) := by
  have hjump : (f.jump s next).rename ρ = f.jump s (next.map ρ) := by
    cases next <;> rfl
  have hassumption : (f.assumption s).rename ρ = f.assumption s := rfl
  have hmarker : (Instruction.skip.scaffoldAt (p.fetch f.exit)).rename ρ =
      Instruction.skip.scaffoldAt (p.fetch f.exit) := rfl
  simp only [tail, Listing.rename_append, Listing.rename_ite, Listing.rename_cons,
    Listing.rename_nil, hjump, hassumption, hmarker, Function.comp_apply]

theorem rename_copyOf (hS : Set.InjOn ρ S) (he : e.1 ∈ f.body)
    (hmem : ∀ t ∈ (f.copyOf n e).2.targets, t ∈ S) :
    (ρ (f.copyOf n e).1, (f.copyOf n e).2.rename ρ) = f.copyOf (ρ ∘ n) (ρ e.1, e.2.rename ρ) := by
  have hinj : ∀ t ∈ e.2.targets.map
      (p.copyTarget (p.copied f.body) f.exit (n ∘ Part.copy)), t ∈ S :=
    fun t ht ↦ hmem t (List.mem_eraseDups.2 ht)
  have htargets : (e.2.targets.map ρ).map
      (p.copyTarget (p.copied f.body) f.exit ((ρ ∘ n) ∘ Part.copy)) =
        (e.2.targets.map (p.copyTarget (p.copied f.body) f.exit (n ∘ Part.copy))).map ρ := by
    rw [List.map_map, List.map_map]
    exact List.map_congr_left fun t _ ↦ copyTarget_rename hρ t
  rw [copyOf, copyOf, Instruction.rename, Instruction.rename]
  simp only [hρ.eq (mem_ids_of_mem he), htargets,
    eraseDups_map fun t ht u hu ↦ hS (hinj t ht) (hinj u hu)]
  rfl

theorem rename_leave (hS : Set.InjOn ρ S) (hi : ∀ t ∈ i.targets, t ∈ S) :
    (f.leave n i).rename ρ = f.leave (ρ ∘ n) (i.rename ρ) := by
  have hout : ((fun t ↦ decide (t ≠ f.exit ∧ t ∉ f.body)) ∘ ρ) =
      fun t ↦ decide (t ≠ f.exit ∧ t ∉ f.body) := by
    funext t
    simp only [Function.comp_apply, ne_eq, hρ _ f.exit_mem_ids, hρ.mem_iff fun _ ↦ mem_ids_of_mem]
  rw [leave, leave, Instruction.targets_rename, List.find?_map, hout]
  cases hfind : i.targets.find? fun t ↦ t ≠ f.exit ∧ t ∉ f.body with
  | none => rfl
  | some t =>
    have ht := List.mem_of_find?_eq_some hfind
    simp only [Option.map_some, Instruction.rename_rename]
    refine Instruction.rename_congr fun u hu ↦ ?_
    by_cases hut : u = t
    · rw [Function.comp_apply, Function.comp_apply, hut, InstrId.redirect_self,
        InstrId.redirect_self, Function.comp_apply]
    · have hne : ρ u ≠ ρ t := fun e ↦ hut (hS (hi u hu) (hi t ht) e)
      rw [Function.comp_apply, Function.comp_apply, InstrId.redirect_of_ne hut,
        InstrId.redirect_of_ne hne]

theorem rename_inside (hS : Set.InjOn ρ S) (hi : ∀ t ∈ i.targets, t ∈ S) (u : InstrId) :
    (f.inside s n u i).rename ρ = f.inside s (ρ ∘ n) u (i.rename ρ) := by
  have hstay : (f.stay s n u i).rename ρ = f.stay s (ρ ∘ n) u (i.rename ρ) := by
    rw [stay, stay]
    split
    · exact rename_leave hρ hS hi
    · rfl
  have hsource : (i.rename ρ).isSourceAssertion = i.isSourceAssertion := rfl
  rw [inside, inside, hsource, ← hstay]
  split <;> rfl

theorem rename_change (hS : Set.InjOn ρ S) (he : ∀ t ∈ e.2.targets, t ∈ S) :
    (f.change s n e).rename ρ = f.change s (ρ ∘ n) (ρ e.1, e.2.rename ρ) := by
  rw [change, change]
  simp only [hρ _ f.exit_mem_ids, hρ.mem_iff fun _ ↦ mem_ids_of_mem]
  split
  · rw [Instruction.rename, Instruction.rename, List.map_singleton,
      hρ.eq (mem_ids_of_mem f.head_mem)]
  · split
    · next hbody => rw [rename_inside hρ hS he, hρ.eq (mem_ids_of_mem hbody)]
    · rw [Instruction.rename_rename, Instruction.rename_rename]
      refine Instruction.rename_congr fun t _ ↦ ?_
      have hhead := hρ _ (mem_ids_of_mem f.head_mem) t
      rw [Function.comp_apply, Function.comp_apply, enter, enter]
      by_cases ht : t = f.head
      · rw [hhead.2 ht, ht, InstrId.redirect_self, InstrId.redirect_self, Function.comp_apply]
      · rw [InstrId.redirect_of_ne ht, InstrId.redirect_of_ne (hhead.not.2 ht)]

theorem rename_copies (hS : Set.InjOn ρ S) (hmine : ∀ e ∈ mine, e.1 ∈ f.body)
    (hcopies : ∀ e ∈ f.copies s n mine, ∀ t ∈ e.2.targets, t ∈ S) :
    (f.copies s n mine).rename ρ = f.copies s (ρ ∘ n) (mine.rename ρ) := by
  rw [copies] at hcopies ⊢
  rw [copies]
  split
  · next hdup =>
    rw [if_pos hdup] at hcopies
    rw [Listing.rename, Listing.rename, List.map_map, List.map_map]
    exact List.map_congr_left fun e he ↦
      rename_copyOf hρ hS (hmine e he) (hcopies _ (List.mem_map_of_mem he))
  · rfl

/-- Renaming what an entry becomes is renaming the entry and the names. -/
theorem rename_expand (hS : Set.InjOn ρ S) (hmine : ∀ e ∈ mine, e.1 ∈ f.body)
    (hcopies : ∀ e ∈ f.copies s n mine, ∀ t ∈ e.2.targets, t ∈ S)
    (he : ∀ t ∈ e.2.targets, t ∈ S) : (f.expand s n mine next e).rename ρ =
      f.expand s (ρ ∘ n) (mine.rename ρ) (next.map ρ) (ρ e.1, e.2.rename ρ) := by
  have hhead := hρ _ (mem_ids_of_mem f.head_mem) e.1
  rw [expand, expand, Listing.rename_append, Listing.rename_append, Listing.rename_cons,
    Listing.rename_ite, Listing.rename_ite, Listing.rename_ite, rename_fronts,
    rename_copies hρ hS hmine hcopies, rename_tail, rename_change hρ hS he]
  simp only [hhead, hρ _ f.exit_mem_ids, Listing.rename_nil]

theorem rename_mine (l : Listing) : (f.mine l).rename ρ = f.mine (l.rename ρ) := by
  rw [mine, mine, Listing.rename, Listing.rename, List.filter_map]
  congr 1
  refine List.filter_congr fun e _ ↦ ?_
  simp only [Function.comp_apply, hρ.mem_iff kept_subset_ids]

omit hρ in
theorem mem_body_of_mem_mine (he : e ∈ f.mine l) : e.1 ∈ f.body :=
  mem_body_of_mem_kept (of_decide_eq_true (List.mem_filter.1 he).2)

/-- Renaming a converted listing is renaming the listing and the names. -/
theorem rename_converted (hS : Set.InjOn ρ S) (hl : ∀ e ∈ l, ∀ t ∈ e.2.targets, t ∈ S)
    (hcopies : ∀ e ∈ f.copies s n (f.mine l), ∀ t ∈ e.2.targets, t ∈ S) :
    (f.converted s n l).rename ρ = f.converted s (ρ ∘ n) (l.rename ρ) := by
  rw [converted, converted, Listing.ids_rename, successor?_map (hρ _ f.exit_mem_ids),
    ← rename_mine hρ, Listing.rename_flatMap, Listing.flatMap_rename]
  refine List.flatMap_congr fun e he ↦ ?_
  exact rename_expand hρ hS (fun e' he' ↦ mem_body_of_mem_mine he') hcopies (hl e he)

end

/-! ### The ids of a converted listing -/

/-- What shows where the first iteration ends. -/
def markerParts (s : Setup) (f : Site p) : List Part :=
  (if s.config.duplicateBody ∧ (p.fetch f.exit).isAlwaysTaken = false then [.jump] else []) ++
    if s.config.duplicateBody then [.marker] else []

/-- What is written behind the exit. -/
def tailParts (s : Setup) (f : Site p) : List Part :=
  (if s.config.assumesAfter then [.after] else []) ++ f.markerParts s

/-- The ids of the copies of some instructions. -/
def copyIds (s : Setup) (n : Part → InstrId) (us : List InstrId) : List InstrId :=
  if s.config.duplicateBody then us.map (n ∘ Part.copy) else []

/-- The ids around one of the listing, the instructions `us` being copied. -/
def around (s : Setup) (f : Site p) (n : Part → InstrId) (us : List InstrId) (id : InstrId) :
    List InstrId :=
  (if id = f.head then (List.range (f.vars.length + 1)).map (n ∘ Part.front) else []) ++
    (if id = f.exit then copyIds s n us else []) ++
      id :: if id = f.exit then (f.tailParts s).map n else []

variable {id x : InstrId}

theorem ids_fronts :
    (f.fronts s n).ids = (List.range (f.vars.length + 1)).map (n ∘ Part.front) := by
  have hrange := List.zipIdx_map_snd 0 (scaffoldBlock s f.toLoop (p.fetch f.head) f.guard)
  rw [length_scaffoldBlock, ← List.range_eq_range'] at hrange
  rw [fronts, Listing.ids, List.map_map, ← hrange, List.map_map]
  rfl

theorem ids_copies : (f.copies s n mine).ids = copyIds s n mine.ids := by
  rw [copies, copyIds]
  split
  · rw [Listing.ids, Listing.ids, List.map_map, List.map_map]
    rfl
  · rfl

theorem ids_tail : (f.tail s n next).ids = (f.tailParts s).map n := by
  simp only [tail, tailParts, markerParts, Listing.ids, List.map_append, apply_ite (List.map _),
    List.map_cons, List.map_nil, List.append_assoc]

theorem ids_expand : (f.expand s n mine next e).ids = f.around s n mine.ids e.1 := by
  have hcopies : (f.copies s n mine).ids = _ := ids_copies
  have htail : (f.tail s n next).ids = _ := ids_tail
  rw [around, ← ids_fronts (s := s), ← hcopies, ← htail, expand]
  simp only [Listing.ids, List.map_append, apply_ite (List.map _), List.map_cons, List.map_nil]

theorem ids_mine (l : Listing) : (f.mine l).ids = l.ids.filter (· ∈ p.kept f.body) := by
  rw [mine, Listing.ids, Listing.ids, List.filter_map]
  rfl

theorem ids_converted (s : Setup) (n : Part → InstrId) (l : Listing) :
    (f.converted s n l).ids =
      l.ids.flatMap (f.around s n (l.ids.filter (· ∈ p.kept f.body))) := by
  rw [← ids_mine, converted, Listing.ids, List.map_flatMap, Listing.ids, List.flatMap_map]
  exact List.flatMap_congr fun e _ ↦ ids_expand

theorem self_mem_around : id ∈ f.around s n us id := by
  simp [around]

theorem mem_ids_converted_of_mem (h : id ∈ l.ids) : id ∈ (f.converted s n l).ids := by
  rw [ids_converted]
  exact List.mem_flatMap.2 ⟨id, h, self_mem_around⟩

/-- An id around another one is that one or one of the names. -/
theorem eq_or_exists_of_mem_around (hx : x ∈ f.around s n us id) : x = id ∨ ∃ a, x = n a := by
  simp only [around, copyIds, List.mem_append, List.mem_cons, List.mem_ite_nil_right,
    List.mem_map, Function.comp_apply] at hx
  rcases hx with (⟨-, k, -, rfl⟩ | ⟨-, -, u, -, rfl⟩) | rfl | ⟨-, a, -, rfl⟩
  · exact .inr ⟨_, rfl⟩
  · exact .inr ⟨_, rfl⟩
  · exact .inl rfl
  · exact .inr ⟨_, rfl⟩

theorem mem_or_exists_of_mem_ids_converted (hx : x ∈ (f.converted s n l).ids) :
    x ∈ l.ids ∨ ∃ a, x = n a := by
  rw [ids_converted] at hx
  obtain ⟨id, hid, hx⟩ := List.mem_flatMap.1 hx
  rcases eq_or_exists_of_mem_around hx with rfl | ha
  · exact .inl hid
  · exact .inr ha

/-- Away from the head and the exit nothing is written. -/
theorem around_of_ne (hhead : id ≠ f.head) (hexit : id ≠ f.exit) : f.around s n us id = [id] := by
  rw [around, if_neg hhead, if_neg hexit, if_neg hexit]
  rfl

theorem head?_around_head : (f.around s n us f.head).head? = some (n (.front 0)) := by
  rw [around, if_pos rfl, List.range_succ_eq_map]
  rfl

/-- Which ids there are does not depend on what the instructions are. -/
theorem map_ids_converted (hρ : f.KeptBy ρ) (s : Setup) (n : Part → InstrId) {l' : Listing}
    (hl : l.ids.map ρ = l'.ids) :
    (f.converted s n l).ids.map ρ = (f.converted s (ρ ∘ n) l').ids := by
  have hfilter : l'.ids.filter (· ∈ p.kept f.body) = l.ids.filter (· ∈ p.kept f.body) := by
    have hkept : ((fun id ↦ decide (id ∈ p.kept f.body)) ∘ ρ) =
        fun id ↦ decide (id ∈ p.kept f.body) := by
      funext id
      simp only [Function.comp_apply, hρ.mem_iff kept_subset_ids]
    rw [← hl, List.filter_map, hkept]
    refine (List.map_congr_left fun id hid ↦ ?_).trans (List.map_id _)
    exact hρ.eq (kept_subset_ids id (of_decide_eq_true (List.mem_filter.1 hid).2))
  have haround : ∀ us id, (f.around s n us id).map ρ = f.around s (ρ ∘ n) us (ρ id) := by
    intro us id
    simp only [around, copyIds, List.map_append, List.map_cons, apply_ite (List.map ρ),
      List.map_nil, List.map_map, hρ _ f.exit_mem_ids, hρ _ (mem_ids_of_mem f.head_mem)]
    rfl
  rw [ids_converted, ids_converted, hfilter, ← hl, List.map_flatMap, List.flatMap_map]
  exact List.flatMap_congr fun id _ ↦ haround _ id

/-- What is written for a loop. -/
def parts (s : Setup) (f : Site p) : List Part :=
  (List.range (f.vars.length + 1)).map .front ++
    (if s.config.duplicateBody then (p.kept f.body).map .copy else []) ++ f.tailParts s

theorem name_mem_ids_converted {a : Part} (hl : p.order ⊆ l.ids) (ha : a ∈ f.parts s) :
    n a ∈ (f.converted s n l).ids := by
  have horder : ∀ u ∈ f.ids, u ∈ l.ids := fun u hu ↦ hl (mem_order_of_mem_ids hu)
  rw [ids_converted, List.mem_flatMap]
  rw [parts, List.mem_append, List.mem_append] at ha
  rcases ha with (ha | ha) | ha
  · refine ⟨f.head, horder _ (mem_ids_of_mem f.head_mem), ?_⟩
    obtain ⟨k, hk, rfl⟩ := List.mem_map.1 ha
    rw [around, if_pos rfl]
    exact List.mem_append_left _ (List.mem_append_left _ (List.mem_map.2 ⟨k, hk, rfl⟩))
  · refine ⟨f.exit, horder _ f.exit_mem_ids, ?_⟩
    obtain ⟨hdup, ha⟩ := List.mem_ite_nil_right.1 ha
    obtain ⟨u, hu, rfl⟩ := List.mem_map.1 ha
    have hmem : u ∈ l.ids.filter (· ∈ p.kept f.body) :=
      List.mem_filter.2 ⟨horder u (kept_subset_ids u hu), decide_eq_true hu⟩
    rw [around, if_pos rfl, copyIds, if_pos hdup]
    exact List.mem_append_left _ (List.mem_append_right _ (List.mem_map.2 ⟨u, hmem, rfl⟩))
  · refine ⟨f.exit, horder _ f.exit_mem_ids, ?_⟩
    rw [around, if_pos rfl, if_pos rfl]
    exact List.mem_append_right _ (List.mem_cons_of_mem _ (List.mem_map_of_mem ha))

/-! ### Targets -/

theorem mem_targets_fronts (he : e ∈ f.fronts s n) : e.2.targets = [] := by
  obtain ⟨x, hx, rfl⟩ := List.mem_map.1 he
  exact targets_of_mem_scaffoldBlock (List.fst_mem_of_mem_zipIdx hx)

theorem mem_targets_copies (he : e ∈ f.copies s n mine) (ht : t ∈ e.2.targets) :
    (∃ e' ∈ mine, t ∈ e'.2.targets) ∨ t ∈ f.ids ∨ ∃ u ∈ p.kept f.body,
      s.config.duplicateBody = true ∧ t = n (.copy u) := by
  obtain ⟨hdup, he⟩ := List.mem_ite_nil_right.1 he
  obtain ⟨e', he', rfl⟩ := List.mem_map.1 he
  rcases mem_targets_copyOf ht with ht | rfl | ⟨u, hu, rfl⟩
  · exact .inl ⟨e', he', ht⟩
  · exact .inr (.inl f.exit_mem_ids)
  · exact .inr (.inr ⟨u, hu, hdup, rfl⟩)

theorem mem_targets_tail (he : e ∈ f.tail s n next) (ht : t ∈ e.2.targets) : next = some t := by
  simp only [tail, List.mem_append, List.mem_ite_nil_right, List.mem_singleton] at he
  rcases he with (⟨-, rfl⟩ | ⟨-, rfl⟩) | ⟨-, rfl⟩
  · cases ht
  · exact Option.mem_toList.1 ht
  · cases ht

theorem mem_targets_change (ht : t ∈ (f.change s n e).targets) :
    t ∈ e.2.targets ∨ t ∈ f.ids ∨ ∃ a ∈ f.parts s, t = n a := by
  have hrename : ∀ old a, a ∈ f.parts s → t ∈ (e.2.rename (InstrId.redirect old (n a))).targets →
      t ∈ e.2.targets ∨ t ∈ f.ids ∨ ∃ a ∈ f.parts s, t = n a := by
    intro old a ha ht
    obtain ⟨u, hu, rfl⟩ := List.mem_map.1 ht
    rcases InstrId.redirect_cases old (n a) u with h | h
    · exact .inl (h.symm ▸ hu)
    · exact .inr (.inr ⟨a, ha, h⟩)
  rw [change] at ht
  split at ht
  · cases List.mem_singleton.1 ht
    exact .inr (.inl (mem_ids_of_mem f.head_mem))
  · split at ht
    · have hinside : (f.inside s n e.1 e.2).targets = (f.stay s n e.1 e.2).targets := by
        rw [inside]
        split <;> rfl
      rw [hinside, stay] at ht
      split at ht
      · next hafter =>
        rw [leave] at ht
        cases hfind : e.2.targets.find? fun t ↦ t ≠ f.exit ∧ t ∉ f.body with
        | none =>
          rw [hfind] at ht
          exact .inl ht
        | some old =>
          rw [hfind] at ht
          refine hrename old .after ?_ ht
          simp [parts, tailParts, hafter.1]
      · exact .inl ht
    · exact hrename _ _ (by simp [parts]) ht

theorem mem_expand {e' : InstrId × Instruction} : e' ∈ f.expand s n mine next e ↔
    (e.1 = f.head ∧ e' ∈ f.fronts s n) ∨ (e.1 = f.exit ∧ e' ∈ f.copies s n mine) ∨
      e' = (e.1, f.change s n e) ∨ (e.1 = f.exit ∧ e' ∈ f.tail s n next) := by
  simp only [expand, List.mem_append, List.mem_cons, List.mem_ite_nil_right, or_assoc]

/-- The conversion of a site leaves no target behind that is not listed. -/
theorem live_converted (hsub : p.order ⊆ l.ids) (hlive : ∀ e ∈ l, ∀ t ∈ e.2.targets, t ∈ l.ids) :
    ∀ e ∈ f.converted s n l, ∀ t ∈ e.2.targets, t ∈ (f.converted s n l).ids := by
  have hold : ∀ t ∈ l.ids, t ∈ (f.converted s n l).ids := fun t ↦ mem_ids_converted_of_mem
  have hids : ∀ t ∈ f.ids, t ∈ (f.converted s n l).ids := fun t ht ↦
    hold t (hsub (mem_order_of_mem_ids ht))
  intro e' he' t ht
  obtain ⟨e, he, he'⟩ := List.mem_flatMap.1 he'
  rcases mem_expand.1 he' with ⟨-, he'⟩ | ⟨-, he'⟩ | rfl | ⟨-, he'⟩
  · rw [mem_targets_fronts he'] at ht
    cases ht
  · rcases mem_targets_copies he' ht with ⟨e₁, he₁, ht⟩ | ht | ⟨u, hu, hdup, rfl⟩
    · exact hold t (hlive e₁ (List.mem_of_mem_filter he₁) t ht)
    · exact hids t ht
    · exact name_mem_ids_converted hsub (by simp [parts, hdup, hu])
  · rcases mem_targets_change ht with ht | ht | ⟨a, ha, rfl⟩
    · exact hold t (hlive e he t ht)
    · exact hids t ht
    · exact name_mem_ids_converted hsub ha
  · exact hold t (mem_of_successor? (mem_targets_tail he' ht))

end Site

end LoopInduction
