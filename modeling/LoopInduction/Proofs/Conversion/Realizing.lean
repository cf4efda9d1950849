import LoopInduction.Proofs.Conversion.Commuting
import LoopInduction.Proofs.Conversion.Targets

/-!
# Conversions do what the rewritings say

A run of the conversion makes up ids for the instructions that it writes. With these as names the
entries of the program that it leaves are those of the rewritten listing
(`Site.Conversion.entries_eq`), and what is reported of the loop are names
(`Site.Conversion.exists_named`). The order is compared piece by piece, and the instructions one
kind after the other: what is new stays as it was written, what is old is changed once by each pass.

## Main definitions

* `Site.points`, `Site.summary` : what is reported of a site.
* `Site.Conversion` : the conversion of a loop of the input in a program that keeps the input.
* `Site.Named` : the names are the ids that a conversion gave out.

## Main results

* `Site.Conversion.exists_named` : the ids that were given out can be told apart.
* `Site.Conversion.entries_eq` : the conversion is the rewriting.
-/

namespace LoopInduction

open Program

namespace Program

variable {p q : Program} {k : Nat} {new pre post : List InstrId} {id : InstrId} {l : Listing}

theorem Splice.order_eq (h : Splice p q k new) (hp : p.order = pre ++ post)
    (hk : pre.length = k) : q.order = pre ++ new ++ post := by
  rw [h.order, hp, ← hk, List.take_left, List.drop_left]

/-- A listing with the ids of the program and their instructions is that of the program. -/
theorem eq_entries (hids : l.ids = p.order) (hfetch : ∀ e ∈ l, p.fetch e.1 = e.2) :
    l = p.entries := by
  rw [entries, ← hids, Listing.ids, List.map_map]
  conv_lhs => rw [← List.map_id l]
  refine List.map_congr_left fun e he ↦ ?_
  rw [Function.comp_apply, hfetch e he]
  rfl

theorem copyTarget_congr {cs : List InstrId} {exit t : InstrId} {copy copy' : InstrId → InstrId}
    (hskip : ∀ u ∈ cs, (q.fetch u).isSkip = (p.fetch u).isSkip)
    (hcopy : ∀ u ∈ cs, (p.fetch u).isSkip = false → copy' u = copy u) :
    q.copyTarget cs exit copy' t = p.copyTarget cs exit copy t := by
  rw [copyTarget, copyTarget]
  split
  · have hfind : (cs.dropWhile (· ≠ t)).find? (fun id ↦ !(q.fetch id).isSkip) =
        (cs.dropWhile (· ≠ t)).find? fun id ↦ !(p.fetch id).isSkip :=
      List.find?_congr fun u hu ↦ by rw [hskip u ((List.dropWhile_sublist _).subset hu)]
    rw [hfind]
    cases hu : (cs.dropWhile (· ≠ t)).find? fun id ↦ !(p.fetch id).isSkip with
    | none => rfl
    | some u =>
      have hmem := (List.dropWhile_sublist _).subset (List.mem_of_find?_eq_some hu)
      have hkept := List.find?_some hu
      exact hcopy u hmem (by simpa using hkept)
  · rfl

end Program

section

variable {s : Setup} {l : Loop} {condition : LoopCondition} {body : List InstrId}
  {assumption : Option InstrId} {p q : Program} {id : InstrId}

theorem ForwardedIf.fetch_of_ne (h : ForwardedIf s l condition assumption p q)
    (hid : id ∈ p.order) (hexit : id ≠ l.exit) (hbranch : id ≠ condition.branch) :
    q.fetch id = p.fetch id := by
  obtain rfl | ⟨_, -, -, h⟩ := h.eq_or_exists
  · rfl
  · rw [fetch_eq (h.get?_old id hid), if_neg hexit, if_neg hbranch]

theorem AssumedIf.fetch_of_isSourceAssertion (h : AssumedIf s l p q) (hid : id ∈ p.order)
    (hsource : (p.fetch id).isSourceAssertion = false) : q.fetch id = p.fetch id := by
  obtain rfl | ⟨_, h⟩ := h.eq_or_exists
  · rfl
  · rw [fetch_eq (h.get? id hid), if_neg (by simp [hsource])]

/-- The assertions of the body are those of the loop, whatever was written into it. -/
theorem AssumedIf.fetch_eq (h : AssumedIf s l p q) (hid : id ∈ p.order)
    (hbody : ∀ ids, p.range l.head l.exit = .ok ids → (id ∈ ids ↔ id ∈ body)) :
    q.fetch id = if s.config.convertAsserts ∧ id ∈ body ∧ (p.fetch id).isSourceAssertion then
      { p.fetch id with kind := .assume } else p.fetch id := by
  rw [AssumedIf] at h
  split at h
  · next hasserts =>
    obtain ⟨ids, hids, h⟩ := h
    rw [Program.fetch_eq (h.get? id hid)]
    simp only [hbody ids hids, hasserts, true_and]
  · next hasserts =>
    rw [h, if_neg fun hc ↦ hasserts hc.1]

end

/-- Only the ids of copies that stay matter. -/
theorem Unwound.congr_copy {p q : Program} {body : List InstrId} {exit behind marker : InstrId}
    {builder : GuardBuilder} {copy copy' : InstrId → InstrId} {jump : Option InstrId}
    (h : Unwound p q body exit behind builder copy jump marker)
    (hcopy : ∀ u ∈ p.kept body, copy' u = copy u) :
    Unwound p q body exit behind builder copy' jump marker := by
  have htarget : p.copyTarget (p.copied body) exit copy' =
      p.copyTarget (p.copied body) exit copy := by
    funext t
    exact copyTarget_congr (fun _ _ ↦ rfl) fun u hu hskip ↦ hcopy u (mem_kept.2 ⟨hu, hskip⟩)
  refine { h with splice := ?_, get?_copy := fun u hu ↦ ?_, targets_copy := fun u hu ↦ ?_ }
  · rw [List.map_congr_left hcopy]
    exact h.splice
  · rw [hcopy u hu, htarget]
    exact h.get?_copy u hu
  · rw [hcopy u hu, htarget]
    exact h.targets_copy u hu

/-! ### Names -/

/-- Names for the new instructions of a conversion. -/
def Part.name (p : Program) (kept : List InstrId) (copy : InstrId → InstrId)
    (after jump marker : Option InstrId) : Part → InstrId
  | front k => ⟨p.slots.size + k⟩
  | Part.copy u => if u ∈ kept then copy u else p.fresh
  | Part.after => after.getD p.fresh
  | Part.jump => jump.getD p.fresh
  | Part.marker => marker.getD p.fresh

theorem Part.name_notMem {p₀ p : Program} (hext : p₀.Extends p) {kept : List InstrId}
    {copy : InstrId → InstrId} {after jump marker : Option InstrId}
    (hcopy : ∀ u ∈ kept, copy u ∉ p₀.order) (hafter : ∀ a ∈ after, a ∉ p₀.order)
    (hjump : ∀ a ∈ jump, a ∉ p₀.order) (hmarker : ∀ a ∈ marker, a ∉ p₀.order) (a : Part) :
    a.name p kept copy after jump marker ∉ p₀.order := by
  have hfresh : p.fresh ∉ p₀.order := fun hmem ↦ p.fresh_notMem_order (hext.mem hmem)
  have hoption : ∀ o : Option InstrId, (∀ a ∈ o, a ∉ p₀.order) → o.getD p.fresh ∉ p₀.order := by
    intro o ho
    cases o with
    | none => exact hfresh
    | some a => exact ho a rfl
  cases a with
  | front k => exact fun hmem ↦ absurd (index_lt_of_mem (hext.mem hmem)) (by simp [name])
  | copy u =>
    rw [name]
    split
    · next hu => exact hcopy u hu
    · exact hfresh
  | after => exact hoption _ hafter
  | jump => exact hoption _ hjump
  | marker => exact hoption _ hmarker

namespace Site

variable {p₀ : Program} (s : Setup) (f : Site p₀) (n : Part → InstrId)

/-- Where the iterations end. -/
def points : Option IterationPoints :=
  if s.config.duplicateBody then
    some ⟨n .marker, ((p₀.kept f.body).map (n ∘ Part.copy)).getLast?⟩
  else none

/-- What is reported of the loop. -/
def summary (function : String) : LoopSummary where
  function := function
  head := f.head
  exit := f.exit
  branch := some f.branch
  points := f.points s n
  assumption := if s.config.assumesAfter then some (n .after) else none

/-- The loop of the input is converted in a program that keeps the input. -/
structure Conversion (s : Setup) (f : Site p₀) (condition : LoopCondition)
    (points : Option IterationPoints) (assumption : Option InstrId) (p p₁ p₂ p₃ q : Program) :
    Prop where
  converted : Converted s f.toLoop f.body condition points assumption p p₁ p₂ p₃ q
  extension : p₀.Extends p
  hasCondition : p.HasCondition f.toLoop f.body condition
  branch_eq : condition.branch = f.branch
  sound : p.Sound

/-- The names are the ids that the conversion gave out. -/
structure Named (s : Setup) (f : Site p₀) (n : Part → InstrId) (condition : LoopCondition)
    (p p₁ p₂ p₃ : Program) : Prop where
  fresh : ∀ a, n a ∉ p₀.order
  front : ∀ k, n (.front k) = ⟨p.slots.size + k⟩
  unwound : s.config.duplicateBody = true → ∃ behind, Unwound p₁ p₂ f.body f.exit behind s.builder
    (n ∘ Part.copy) (if (p₀.fetch f.exit).isAlwaysTaken then none else some (n .jump)) (n .marker)
  forwarded : s.config.assumesAfter = true → ∃ target, condition.exitTarget = some target ∧
    n .after = p₂.fresh ∧ Forwarded s f.toLoop condition target p₂ p₃

section

variable {s f n} {condition : LoopCondition} {points : Option IterationPoints}
  {assumption : Option InstrId} {p p₁ p₂ p₃ q : Program} {id u : InstrId}

/-- The same instructions of the body are copied as in the input. -/
theorem copied_of_extends (hext : p₀.Extends p) (f : Site p₀) :
    p.copied f.body = p₀.copied f.body :=
  List.filter_congr fun u hu ↦ by
    rw [(hext.retained u (mem_order_of_mem_ids (mem_ids_of_mem hu))).isScaffold_eq]

theorem kept_of_extends (hext : p₀.Extends p) (f : Site p₀) :
    p.kept f.body = p₀.kept f.body := by
  rw [Program.kept, Program.kept, copied_of_extends hext]
  refine List.filter_congr fun u hu ↦ ?_
  rw [(hext.retained u (mem_order_of_mem_ids (mem_ids_of_mem (mem_copied.1 hu).1))).isSkip_eq]

namespace Conversion

variable (h : Conversion s f condition points assumption p p₁ p₂ p₃ q)

include h

theorem guard_eq : condition.guard = f.guard := by
  rw [h.hasCondition.guard_eq, h.branch_eq]
  exact (h.extension.retained _ (mem_order_of_mem_ids (mem_ids_of_mem f.branch_mem))).guard_eq

theorem extension₁ : p₀.Extends p₁ :=
  h.extension.trans h.converted.scaffolded.extension

theorem extension₂ : p₀.Extends p₂ :=
  h.extension₁.trans h.converted.unwound.extension

theorem isAlwaysTaken_eq : (p₁.fetch f.exit).isAlwaysTaken = (p₀.fetch f.exit).isAlwaysTaken :=
  (h.extension₁.retained _ (mem_order_of_mem_ids f.exit_mem_ids)).isAlwaysTaken_eq

theorem notMem_of_assumption {a : InstrId} (ha : a ∈ assumption) : a ∉ p₀.order := by
  have hforwarded := h.converted.forwarded
  cases ha
  exact fun hmem ↦ p₂.fresh_notMem_order (hforwarded.2.1 ▸ h.extension₂.mem hmem)

theorem assumption_eq (a : InstrId) :
    assumption = if s.config.assumesAfter then some (assumption.getD a) else none := by
  have hforwarded := h.converted.forwarded
  cases assumption with
  | none => rw [hforwarded.1]; rfl
  | some b => rw [hforwarded.1]; rfl

theorem forwarded_of_assumesAfter (hafter : s.config.assumesAfter = true) (a : InstrId) :
    ∃ target, condition.exitTarget = some target ∧ assumption.getD a = p₂.fresh ∧
      Forwarded s f.toLoop condition target p₂ p₃ := by
  have hforwarded := h.converted.forwarded
  cases assumption with
  | none =>
    rw [hforwarded.1] at hafter
    cases hafter
  | some b =>
    obtain ⟨-, hfresh, target, htarget, hforwarded⟩ := hforwarded
    exact ⟨target, htarget, hfresh, hforwarded⟩

/-- The ids that a conversion gives out can be told apart by what they are for. -/
theorem exists_named : ∃ n, Named s f n condition p p₁ p₂ p₃ ∧ points = f.points s n ∧
    assumption = if s.config.assumesAfter then some (n .after) else none := by
  have hunwound := h.converted.unwound
  cases points with
  | none =>
    have hdup : s.config.duplicateBody = false := hunwound.1
    refine ⟨Part.name p [] id assumption none none, ⟨?_, fun _ ↦ rfl, fun hdup' ↦ ?_,
      fun hafter ↦ h.forwarded_of_assumesAfter hafter _⟩, ?_, h.assumption_eq _⟩
    · exact Part.name_notMem h.extension (by simp) (fun _ ↦ h.notMem_of_assumption) (by simp)
        (by simp)
    · rw [hdup] at hdup'
      cases hdup'
    · rw [Site.points, hdup]
      rfl
  | some pts =>
    obtain ⟨hdup, behind, copy, jump, hunwound, hpts⟩ := hunwound
    obtain ⟨r, hpr, -, hrq⟩ := hunwound.exists_splices
    have hkept := kept_of_extends h.extension₁ f
    have hcopies : ∀ u ∈ p₀.kept f.body, copy u ∉ p₀.order := fun u hu hmem ↦
      hrq.notMem_of_mem_new (List.mem_map_of_mem (hkept.symm ▸ hu))
        (hpr.mem_old (h.extension₁.mem hmem))
    have htail : ∀ a ∈ jump.toList ++ [pts.firstExit], a ∉ p₀.order := fun a ha hmem ↦
      hpr.notMem_of_mem_new ha (h.extension₁.mem hmem)
    have hjump : jump = if (p₀.fetch f.exit).isAlwaysTaken then none
        else some (jump.getD p.fresh) := by
      rw [← h.isAlwaysTaken_eq, ← hunwound.guard_isNone]
      cases jump <;> rfl
    refine ⟨Part.name p (p₀.kept f.body) copy assumption jump (some pts.firstExit),
      ⟨?_, fun _ ↦ rfl, fun _ ↦ ⟨behind, ?_⟩, fun hafter ↦ h.forwarded_of_assumesAfter hafter _⟩,
      ?_, h.assumption_eq _⟩
    · refine Part.name_notMem h.extension hcopies (fun _ ↦ h.notMem_of_assumption)
        (fun a ha ↦ htail a ?_) fun a ha ↦ htail a ?_
      · exact List.mem_append_left _ (Option.mem_toList.2 ha)
      · cases ha
        exact List.mem_append_right _ List.mem_cons_self
    · rw [Part.name, ← hjump]
      exact hunwound.congr_copy fun u hu ↦ if_pos (hkept ▸ hu)
    · have hmap : (p₀.kept f.body).map copy = (p₀.kept f.body).map
          (Part.name p (p₀.kept f.body) copy assumption jump (some pts.firstExit) ∘ Part.copy) :=
        List.map_congr_left fun u hu ↦ (if_pos hu).symm
      rw [hkept, hmap] at hpts
      rw [Site.points, if_pos hdup, ← hpts]
      rfl

end Conversion

/-! ### The order -/

theorem head_ne_exit (f : Site p₀) : f.head ≠ f.exit := fun e ↦
  notMem_of_range f.range (e ▸ f.head_mem)

/-- The ids around those of a list in which the loop stands in one piece. -/
theorem flatMap_around {pre post us : List InstrId}
    (hnodup : (pre ++ (f.body ++ f.exit :: post)).Nodup) :
    (pre ++ (f.body ++ f.exit :: post)).flatMap (f.around s n us) =
      pre ++ ((List.range (f.vars.length + 1)).map (n ∘ Part.front) ++ (f.body ++
        (copyIds s n us ++ f.exit :: ((f.tailParts s).map n ++ post)))) := by
  obtain ⟨rest, hrest⟩ := List.head?_eq_some_iff.1
    (head?_of_range f.range (List.ne_nil_of_mem f.branch_mem))
  have hself : ∀ l : List InstrId, f.head ∉ l → f.exit ∉ l → l.flatMap (f.around s n us) = l := by
    intro l hhead hexit
    have hall : ∀ id ∈ l, f.around s n us id = [id] := fun id hid ↦
      around_of_ne (fun h ↦ hhead (h ▸ hid)) fun h ↦ hexit (h ▸ hid)
    rw [List.flatMap_congr hall]
    exact List.flatMap_singleton' l
  have hhead : f.around s n us f.head =
      (List.range (f.vars.length + 1)).map (n ∘ Part.front) ++ [f.head] := by
    rw [around, if_pos rfl, if_neg f.head_ne_exit, if_neg f.head_ne_exit, List.append_nil]
  have hexit : f.around s n us f.exit = copyIds s n us ++ f.exit :: (f.tailParts s).map n := by
    rw [around, if_neg f.head_ne_exit.symm, if_pos rfl, if_pos rfl, List.nil_append]
  rw [hrest] at hnodup ⊢
  have hnotHead : f.head ∉ pre ++ (rest ++ f.exit :: post) :=
    (List.nodup_cons.1 (List.nodup_middle.1 hnodup)).1
  have hnotExit : f.exit ∉ (pre ++ f.head :: rest) ++ post := by
    rw [← List.append_assoc] at hnodup
    exact (List.nodup_cons.1 (List.nodup_middle.1 hnodup)).1
  simp only [List.mem_append, List.mem_cons, not_or] at hnotHead hnotExit
  rw [List.flatMap_append, List.flatMap_append, List.flatMap_cons, List.flatMap_cons, hhead, hexit,
    hself pre hnotHead.1 hnotExit.1.1, hself rest hnotHead.2.1 hnotExit.1.2.2,
    hself post hnotHead.2.2.2 hnotExit.2]
  simp only [List.append_assoc, List.cons_append, List.nil_append]

theorem filter_kept {pre post : List InstrId}
    (hnodup : (pre ++ (f.body ++ f.exit :: post)).Nodup) :
    (pre ++ (f.body ++ f.exit :: post)).filter (· ∈ p₀.kept f.body) = p₀.kept f.body := by
  have hbody : f.body.filter (· ∈ p₀.kept f.body) = p₀.kept f.body := by
    rw [Program.kept, Program.copied, List.filter_filter]
    refine List.filter_congr fun u hu ↦ ?_
    simp [hu]
  have hnot : ∀ u ∈ pre ++ f.exit :: post, u ∉ f.body := by
    intro u hu hbody
    obtain ⟨-, hrest, hpre⟩ := List.nodup_append.1 hnodup
    rcases List.mem_append.1 hu with hu | hu
    · exact hpre u hu u (List.mem_append_left _ hbody) rfl
    · exact (List.nodup_append.1 hrest).2.2 u hbody u hu rfl
  have hnil : ∀ l, l ⊆ pre ++ f.exit :: post → l.filter (· ∈ p₀.kept f.body) = [] := fun l hl ↦
    List.filter_eq_nil_iff.2 fun u hu ↦ by
      simpa using fun hkept ↦ hnot u (hl hu) (mem_body_of_mem_kept hkept)
  rw [List.filter_append, List.filter_append, hbody,
    hnil pre (List.subset_append_left _ _),
    hnil _ (List.subset_append_right _ _), List.nil_append, List.append_nil]

section

variable (h : Conversion s f condition points assumption p p₁ p₂ p₃ q)
  (hn : Named s f n condition p p₁ p₂ p₃)

include h hn

theorem Conversion.order₁ {pre post : List InstrId}
    (horder : p.order = pre ++ (f.body ++ f.exit :: post)) (hpre : pre.length = p.position f.head) :
    p₁.order = (pre ++ (List.range (f.vars.length + 1)).map (n ∘ Part.front) ++ f.body) ++
      f.exit :: post := by
  have hfronts : p.freshIds (f.vars.length + 1) =
      (List.range (f.vars.length + 1)).map (n ∘ Part.front) :=
    List.map_congr_left fun k _ ↦ (hn.front k).symm
  rw [h.converted.scaffolded.splice.order_eq horder hpre, hfronts]
  simp only [List.append_assoc]

theorem Conversion.order₂ {front post : List InstrId}
    (horder : p₁.order = front ++ f.exit :: post) :
    p₂.order = (front ++ copyIds s n (p₀.kept f.body)) ++
      f.exit :: ((f.markerParts s).map n ++ post) := by
  cases hdup : s.config.duplicateBody with
  | false =>
    rw [h.converted.unwound.eq_of_duplicateBody hdup, horder]
    simp [copyIds, markerParts, hdup]
  | true =>
    obtain ⟨behind, hunwound⟩ := hn.unwound hdup
    obtain ⟨r, hpr, hrq⟩ := hunwound.splice
    have hmarkers : (if (p₀.fetch f.exit).isAlwaysTaken then none
        else some (n .jump)).toList ++ [n .marker] = (f.markerParts s).map n := by
      cases halways : (p₀.fetch f.exit).isAlwaysTaken <;> simp [markerParts, hdup, halways]
    have hexit : p₁.position f.exit = front.length := position_eq_length horder
    have hr : r.order = (front ++ [f.exit]) ++ (f.markerParts s).map n ++ post :=
      hmarkers ▸ hpr.order_eq (by simp [horder]) (by simp [hexit])
    have hr' : r.order = front ++ f.exit :: ((f.markerParts s).map n ++ post) := by
      rw [hr]
      simp only [List.append_assoc, List.cons_append, List.nil_append]
    rw [hrq.order_eq hr' hexit.symm, kept_of_extends h.extension₁ f, copyIds, if_pos hdup]

omit h in
theorem Named.order₃ {front post : List InstrId}
    (hforwarded : ForwardedIf s f.toLoop condition assumption p₂ p₃)
    (horder : p₂.order = front ++ f.exit :: ((f.markerParts s).map n ++ post)) :
    p₃.order = front ++ f.exit :: ((f.tailParts s).map n ++ post) := by
  cases hafter : s.config.assumesAfter with
  | false =>
    rw [hforwarded.eq_of_assumesAfter hafter, horder]
    simp [tailParts, hafter]
  | true =>
    obtain ⟨target, -, hfresh, hforwarded⟩ := hn.forwarded hafter
    have hexit := position_eq_length horder
    rw [hforwarded.splice.order_eq (horder.trans (List.append_cons ..))
      (by rw [List.length_append, List.length_singleton, hexit]), ← hfresh]
    simp [tailParts, hafter]

theorem Conversion.ids_converted : (f.converted s n p.entries).ids = q.order := by
  have hrange := h.hasCondition.range
  obtain ⟨pre, post, horder, hpre⟩ : ∃ pre post, p.order = pre ++ (f.body ++ f.exit :: post) ∧
      pre.length = p.position f.head := by
    exact ⟨_, _, (order_of_range hrange).trans (List.append_assoc ..),
      length_take_position (range_eq_ok hrange).1⟩
  have hnodup := p.order_nodup
  rw [horder] at hnodup
  have hkept : p.order.filter (· ∈ p₀.kept f.body) = p₀.kept f.body := by
    rw [horder]
    exact filter_kept hnodup
  have h₂ := h.order₂ hn (h.order₁ hn horder hpre)
  rw [Site.ids_converted, ids_entries, hkept, horder, flatMap_around hnodup,
    h.converted.assumed.order_eq, hn.order₃ h.converted.forwarded h₂]
  simp only [List.append_assoc]

/-! ### The instructions -/

omit hn in
/-- What is new once the body has been copied stays as it is. -/
theorem Conversion.fetch_new (hid : id ∈ p₂.order) (hnot : id ∉ p.order) :
    q.fetch id = p₂.fetch id := by
  have hrange := range_eq_ok h.hasCondition.range
  have hext := h.converted.scaffolded.extension.trans h.converted.unwound.extension
  have h₃ : p₃.fetch id = p₂.fetch id := h.converted.forwarded.fetch_of_ne hid
    (fun e ↦ hnot (e ▸ hrange.2.1)) fun e ↦ hnot (e ▸ h.hasCondition.branch_mem_order)
  have hsource : (p₃.fetch id).isSourceAssertion = false := by
    rw [h₃, Bool.eq_false_iff]
    exact fun hs ↦ hext.added id hid hnot (Instruction.isSourceAssertion_iff.1 hs).2
  rw [h.converted.assumed.fetch_of_isSourceAssertion
    (h.converted.forwarded.extension.mem hid) hsource, h₃]

theorem Conversion.fetch_fronts {e : InstrId × Instruction} (he : e ∈ f.fronts s n) :
    q.fetch e.1 = e.2 := by
  obtain ⟨⟨i, k⟩, hik, rfl⟩ := List.mem_map.1 he
  have hhead := h.extension.retained _ (mem_order_of_mem_ids (mem_ids_of_mem f.head_mem))
  have hget := h.converted.scaffolded.get?_new k
  rw [scaffoldBlock_of_retained hhead, h.guard_eq, List.mk_mem_zipIdx_iff_getElem?.1 hik,
    ← hn.front k] at hget
  have hmem := mem_of_get? hget
  have hnot : n (.front k) ∉ p.order := fun hp ↦ by
    have := index_lt_of_mem (hn.front k ▸ hp)
    simp at this
  rw [h.fetch_new (h.converted.unwound.extension.mem hmem) hnot,
    h.converted.unwound.fetch_old hmem, fetch_eq hget]

omit hn in
theorem Conversion.fetch_body (hu : u ∈ f.body) : p₁.fetch u = p.fetch u :=
  h.converted.scaffolded.fetch_of_mem_body hu
    ((mem_range_iff h.hasCondition.range).1 hu).1 fun e ↦ notMem_of_range f.range (e ▸ hu)

omit hn in
theorem Conversion.notMem_of_splice₁ {r : Program} {k : Nat} {new : List InstrId}
    (hsplice : p₁.Splice r k new) (hid : id ∈ new) : id ∉ p.order := fun hp ↦
  hsplice.notMem_of_mem_new hid (h.converted.scaffolded.extension.mem hp)

theorem Conversion.fetch_copies {e : InstrId × Instruction}
    (he : e ∈ f.copies s n (f.mine p.entries)) : q.fetch e.1 = e.2 := by
  obtain ⟨hdup, he⟩ := List.mem_ite_nil_right.1 he
  obtain ⟨e₀, he₀, rfl⟩ := List.mem_map.1 he
  obtain ⟨he₀, hkept⟩ := List.mem_filter.1 he₀
  obtain ⟨u, hu, rfl⟩ := List.mem_map.1 he₀
  have hkept : u ∈ p₁.kept f.body :=
    (kept_of_extends h.extension₁ f).symm ▸ of_decide_eq_true hkept
  have hbody := h.fetch_body (mem_copied.1 (mem_kept.1 hkept).1).1
  obtain ⟨behind, hunwound⟩ := hn.unwound hdup
  obtain ⟨ts, hget, -⟩ := hunwound.get?_copy u hkept
  have hcopied : ∀ v ∈ p₀.copied f.body, (p₁.fetch v).isSkip = (p₀.fetch v).isSkip := fun v hv ↦
    (h.extension₁.retained v
      (mem_order_of_mem_ids (mem_ids_of_mem (mem_copied.1 hv).1))).isSkip_eq
  have hcopyTarget : p₁.copyTarget (p₁.copied f.body) f.exit (n ∘ Part.copy) =
      p₀.copyTarget (p₀.copied f.body) f.exit (n ∘ Part.copy) := by
    funext t
    rw [copied_of_extends h.extension₁ f]
    exact copyTarget_congr hcopied fun _ _ _ ↦ rfl
  obtain ⟨r, hpr, hrq⟩ := hunwound.splice
  have hnew := hrq.notMem_of_mem_new (List.mem_map_of_mem hkept)
  have hnot : n (.copy u) ∉ p.order := fun hp ↦
    hnew (hpr.mem_old (h.converted.scaffolded.extension.mem hp))
  have hfetch : p₂.fetch (n (.copy u)) = { (p₁.fetch u).duplicate with targets := ts } :=
    fetch_eq hget
  have hts : ts = ((p.fetch u).targets.map
      (p₀.copyTarget (p₀.copied f.body) f.exit (n ∘ Part.copy))).eraseDups := by
    have htargets := hunwound.targets_copy u hkept (hbody ▸ (h.sound u hu).nodup)
    rwa [Function.comp_apply, hfetch, hcopyTarget, hbody] at htargets
  rw [hts, hbody] at hfetch
  exact (h.fetch_new (mem_of_get? hget) hnot).trans hfetch

theorem Conversion.fetch_tail {e : InstrId × Instruction}
    (he : e ∈ f.tail s n (successor? p.order f.exit)) : q.fetch e.1 = e.2 := by
  have hexit := mem_order_of_mem_ids f.exit_mem_ids
  simp only [tail, List.mem_append, List.mem_ite_nil_right, List.mem_singleton] at he
  rcases he with (⟨hafter, rfl⟩ | ⟨⟨hdup, halways⟩, rfl⟩) | ⟨hdup, rfl⟩
  · obtain ⟨target, -, hfresh, hforwarded⟩ := hn.forwarded hafter
    have hget := hforwarded.get?_new
    rw [Instruction.scaffoldAt_of_retained (h.extension₂.retained _ hexit), h.guard_eq,
      ← hfresh] at hget
    rw [h.converted.assumed.fetch_of_isSourceAssertion (mem_of_get? hget)
      (by rw [fetch_eq hget]; rfl), fetch_eq hget]
    rfl
  · obtain ⟨behind, hunwound⟩ := hn.unwound hdup
    have hjump : (if (p₀.fetch f.exit).isAlwaysTaken then none else some (n .jump)) =
        some (n .jump) := if_neg (by simp [halways])
    have hget := hunwound.get?_guard _ hjump
    have hnext := hunwound.next
    have hrange := range_eq_ok h.hasCondition.range
    rw [Instruction.scaffoldAt_of_retained (h.extension₁.retained _ hexit)] at hget
    rw [h.converted.scaffolded.splice.next?_old hrange.2.1, if_neg (by have := hrange.2.2; omega),
      next?_eq_successor?] at hnext
    obtain ⟨r, hpr, -⟩ := hunwound.splice
    rw [hjump] at hpr
    rw [h.fetch_new (mem_of_get? hget) (h.notMem_of_splice₁ hpr (by simp)), fetch_eq hget, hnext]
    rfl
  · obtain ⟨behind, hunwound⟩ := hn.unwound hdup
    have hget := hunwound.get?_marker
    rw [Instruction.scaffoldAt_of_retained (h.extension₁.retained _ hexit)] at hget
    obtain ⟨r, hpr, hrq⟩ := hunwound.splice
    rw [h.fetch_new (mem_of_get? hget) (h.notMem_of_splice₁ hpr (by simp)), fetch_eq hget]

/-- The branch leaves the loop as the rewriting says. -/
theorem Conversion.fetch_stay (hid : id ∈ f.body) :
    p₃.fetch id = f.stay s n id (p.fetch id) := by
  have hp := ((mem_range_iff h.hasCondition.range).1 hid).1
  have hexit : id ≠ f.exit := fun e ↦ notMem_of_range f.range (e ▸ hid)
  have hid₂ := h.converted.unwound.extension.mem (h.converted.scaffolded.extension.mem hp)
  have h₂ : p₂.fetch id = p.fetch id := by
    rw [h.converted.unwound.fetch_old (h.converted.scaffolded.extension.mem hp), h.fetch_body hid]
  rw [stay]
  cases hafter : s.config.assumesAfter with
  | false => rw [h.converted.forwarded.eq_of_assumesAfter hafter, h₂, if_neg (by simp)]
  | true =>
    obtain ⟨target, htarget, hfresh, hforwarded⟩ := hn.forwarded hafter
    rw [fetch_eq (hforwarded.get?_old id hid₂), if_neg hexit, h.branch_eq, h₂]
    by_cases hbranch : id = f.branch
    · have hsound := h.sound id hp
      have hnew : p₂.fresh ∉ (p.fetch id).targets := fun hmem ↦ p₂.fresh_notMem_order
        (h.converted.unwound.extension.mem (h.converted.scaffolded.extension.mem
          (hsound.live _ hmem)))
      rw [h.hasCondition.exitTarget_eq, h.branch_eq, ← hbranch] at htarget
      rw [if_pos hbranch, if_pos ⟨rfl, hbranch⟩, leave, htarget,
        Instruction.redirect_eq_rename hsound.nodup hnew, hfresh]
    · rw [if_neg hbranch, if_neg fun hc ↦ hbranch hc.2]

theorem Conversion.fetch_old (hid : id ∈ p.order) :
    q.fetch id = f.change s n (id, p.fetch id) := by
  have hrange := h.hasCondition.range
  have hid₁ := h.converted.scaffolded.extension.mem hid
  have hid₂ := h.converted.unwound.extension.mem hid₁
  have hid₃ := h.converted.forwarded.extension.mem hid₂
  have hsub := ((h.converted.scaffolded.extension.trans
    h.converted.unwound.extension).trans h.converted.forwarded.extension).sublist
  have h₂ : p₂.fetch id = p.entered f.head f.exit p.fresh f.body id := by
    rw [h.converted.unwound.fetch_old hid₁, fetch_eq (h.converted.scaffolded.get?_old id hid)]
  rw [h.converted.assumed.fetch_eq hid₃ fun ids hids ↦
    mem_range_iff_of_sublist hsub hrange hids hid, change]
  simp only
  by_cases hexit : id = f.exit
  · have hnot : id ∉ f.body := fun hmem ↦ notMem_of_range f.range (hexit ▸ hmem)
    rw [if_neg fun hc ↦ hnot hc.2.1, if_pos hexit]
    rw [entered, if_pos hexit] at h₂
    obtain heq | ⟨_, -, -, hforwarded⟩ := h.converted.forwarded.eq_or_exists
    · rw [heq, h₂]
    · rw [fetch_eq (hforwarded.get?_old id hid₂), if_pos hexit, h₂]
  by_cases hbody : id ∈ f.body
  · rw [h.fetch_stay hn hbody, isSourceAssertion_stay, if_neg hexit, if_pos hbody, inside]
    simp only [hbody, true_and]
  · have hbranch : id ≠ condition.branch := fun e ↦ hbody (e ▸ h.hasCondition.branch_mem)
    have hsound := h.sound id hid
    have hnew : p.fresh ∉ (p.fetch id).targets := fun hmem ↦
      p.fresh_notMem_order (hsound.live _ hmem)
    have hfront : n (.front 0) = p.fresh := hn.front 0
    rw [if_neg fun hc ↦ hbody hc.2.1, if_neg hexit, if_neg hbody,
      h.converted.forwarded.fetch_of_ne hid₂ hexit hbranch, h₂, entered, if_neg hexit, if_neg hbody,
      Instruction.redirect_eq_rename hsound.nodup hnew, enter, hfront]

/-- With the ids that it gave out as names, a conversion is the rewriting. -/
theorem Conversion.entries_eq : q.entries = f.converted s n p.entries := by
  refine (eq_entries (h.ids_converted hn) fun e' he' ↦ ?_).symm
  obtain ⟨e, he, he'⟩ := List.mem_flatMap.1 he'
  rw [ids_entries] at he'
  rcases mem_expand.1 he' with ⟨-, he'⟩ | ⟨-, he'⟩ | rfl | ⟨-, he'⟩
  · exact h.fetch_fronts hn he'
  · exact h.fetch_copies hn he'
  · obtain ⟨id, hid, rfl⟩ := List.mem_map.1 he
    exact h.fetch_old hn hid
  · exact h.fetch_tail hn he'

end

end

end Site

end LoopInduction
