import LoopInduction.Proofs.Execution
import LoopInduction.Proofs.Program.Growth
import LoopInduction.Proofs.Program.History

/-!
# The outcome of removing skips

Removing the accepted skips of a program has one outcome, and all of it is known
(`Program.removeSkipsWhere_exact`). An accepted skip goes if and only if something stands behind it
that is no accepted skip, and the first such instruction takes its place in every jump. Falling
through the skips that went leads to just that instruction, so each step of the program that is left
is matched by an execution of the old one and the other way round.

On linked slots the skips go one after the other, and each step asks the slots that are there at
that moment. What is behind a skip is not changed by those that went before it
(`Arena.Links.run_mapM_removeSkip`), so no step fails and all of them together do the same.

## Main definitions

* `Program.LandsOn` : where a jump goes once less is left of a program.
* `Program.SkipsRemoved` : what the removal of accepted skips leaves.

## Main results

* `Program.removeSkipsWhere_exact` : removing skips leaves just that.
-/

namespace LoopInduction

universe u

namespace Program

variable {p q : Program} {accept : InstrId → Instruction → Bool} {id a b t x y z : InstrId}
  {pre post : List InstrId}

theorem after_of_order (h : p.order = pre ++ a :: post) : p.after a = post := by
  rw [after, dropWhile_order, position_eq_length h, h, List.drop_left]
  rfl

/-! ### Which skips go -/

/-- An accepted skip goes if something stands behind it that is none. -/
theorem mem_map_fst_replaceableSkips_iff (h : p.order = pre ++ a :: post) :
    a ∈ (p.replaceableSkips accept).map Prod.fst ↔
      p.accepts accept a = true ∧ ∃ x ∈ post, p.accepts accept x = false := by
  constructor
  · intro hmem
    obtain ⟨⟨a, b⟩, hab, rfl⟩ := List.mem_map.1 hmem
    obtain ⟨ha, hfind⟩ := (mem_replaceableSkips_iff h).1 hab
    exact ⟨ha, b, List.mem_of_find?_eq_some hfind, by simpa using List.find?_some hfind⟩
  · rintro ⟨ha, x, hx, hstays⟩
    obtain ⟨b, hb⟩ := Option.isSome_iff_exists.1
      (List.find?_isSome (p := (!p.accepts accept ·)).2 ⟨x, hx, by simp [hstays]⟩)
    exact List.mem_map.2 ⟨(a, b), (mem_replaceableSkips_iff h).2 ⟨ha, hb⟩, rfl⟩

theorem mem_order_removeSkipsWhere : id ∈ (p.removeSkipsWhere accept).1.order ↔
    id ∈ p.order ∧ id ∉ (p.replaceableSkips accept).map Prod.fst := by
  rw [order_removeSkipsWhere, List.mem_filter, decide_eq_true_eq]

/-- Between a skip that goes and what takes its place there are only skips that go. -/
theorem exists_stretch_of_mem_replaceableSkips (h : (a, b) ∈ p.replaceableSkips accept) :
    ∃ pre ys post, p.order = pre ++ (a :: ys) ++ b :: post ∧ ∀ y ∈ a :: ys,
      p.accepts accept y = true ∧ y ∈ (p.replaceableSkips accept).map Prod.fst := by
  obtain ⟨pre, post, horder⟩ := List.append_of_mem (accepts_of_mem_replaceableSkips h).1
  obtain ⟨haccept, hfind⟩ := (mem_replaceableSkips_iff horder).1 h
  obtain ⟨hb, ys, post, rfl, hys⟩ := List.find?_eq_some_iff_append.1 hfind
  have hsplit : p.order = pre ++ (a :: ys) ++ b :: post := by
    rw [horder, List.append_assoc, List.cons_append]
  refine ⟨pre, ys, post, hsplit, fun y hy ↦ ?_⟩
  have haccepts : p.accepts accept y = true := by
    rcases List.mem_cons.1 hy with rfl | hy
    · exact haccept
    · simpa using hys y hy
  obtain ⟨ys₁, ys₂, hsplit'⟩ := List.append_of_mem hy
  rw [hsplit', ← List.append_assoc, List.append_assoc, List.cons_append] at hsplit
  exact ⟨haccepts, (mem_map_fst_replaceableSkips_iff hsplit).2
    ⟨haccepts, b, by simp, by simpa using hb⟩⟩

/-! ### Where jumps go -/

/-- Where a jump goes once `q` is left of `p`: on to the first instruction from its target on that
is left. A jump to nowhere still goes there. -/
def LandsOn (p q : Program) (t u : InstrId) : Prop :=
  if t ∈ p.order then (t :: p.after t).find? (· ∈ q.order) = some u else u = t

theorem landsOn_removeSkipsWhere (t : InstrId) : p.LandsOn (p.removeSkipsWhere accept).1 t
    (replacement (p.replaceableSkips accept) t) := by
  by_cases hmem : t ∈ (p.replaceableSkips accept).map Prod.fst
  · obtain ⟨⟨t, b⟩, htb, rfl⟩ := List.mem_map.1 hmem
    obtain ⟨pre, ys, post, horder, hys⟩ := exists_stretch_of_mem_replaceableSkips htb
    have hsplit : p.order = pre ++ t :: (ys ++ b :: post) := by
      rw [horder, List.append_assoc, List.cons_append]
    have hb : b ∈ (p.removeSkipsWhere accept).1.order :=
      mem_order_removeSkipsWhere.2 (survivor_of_mem_replaceableSkips htb)
    rw [LandsOn, if_pos (by simp [hsplit]), after_of_order hsplit,
      replacement_of_mem replaceableSkips_nodup htb, List.find?_eq_some_iff_append]
    refine ⟨by simpa using hb, t :: ys, post, rfl, fun y hy ↦ ?_⟩
    simpa using fun hleft ↦ (mem_order_removeSkipsWhere.1 hleft).2 (hys y hy).2
  · rw [replacement_of_notMem hmem, LandsOn]
    split
    · next ht =>
      rw [List.find?_cons_of_pos (by simpa using mem_order_removeSkipsWhere.2 ⟨ht, hmem⟩)]
    · rfl

/-- Falling through a skip that goes does not change where a jump goes in the end. -/
theorem replacement_of_next? (h : p.next? x = some z)
    (hx : x ∈ (p.replaceableSkips accept).map Prod.fst) :
    replacement (p.replaceableSkips accept) z = replacement (p.replaceableSkips accept) x := by
  obtain ⟨⟨x, b⟩, hxb, rfl⟩ := List.mem_map.1 hx
  obtain ⟨pre, post, hsplit⟩ := isInfix_of_next? h
  have hx : p.order = pre ++ x :: z :: post := by simp [← hsplit]
  have hz : p.order = (pre ++ [x]) ++ z :: post := by simp [← hsplit]
  rw [replacement_of_mem replaceableSkips_nodup hxb]
  obtain ⟨-, hfind⟩ := (mem_replaceableSkips_iff hx).1 hxb
  by_cases haccepts : p.accepts accept z = true
  · rw [List.find?_cons_of_neg (by simp [haccepts])] at hfind
    exact replacement_of_mem replaceableSkips_nodup
      ((mem_replaceableSkips_iff hz).2 ⟨haccepts, hfind⟩)
  · rw [List.find?_cons_of_pos (by simp [haccepts])] at hfind
    have hstays : z ∉ (p.replaceableSkips accept).map Prod.fst := fun hmem ↦
      haccepts ((mem_map_fst_replaceableSkips_iff hz).1 hmem).1
    rw [replacement_of_notMem hstays, Option.some.inj hfind]

/-- What comes next to an instruction that stays is what a jump to the old next one leads to. -/
theorem next?_removeSkipsWhere (hx : x ∈ (p.removeSkipsWhere accept).1.order) :
    (p.removeSkipsWhere accept).1.next? x =
      (p.next? x).map (replacement (p.replaceableSkips accept)) := by
  obtain ⟨hp, hstays⟩ := mem_order_removeSkipsWhere.1 hx
  obtain ⟨pre, post, horder⟩ := List.append_of_mem hp
  have horder' : (p.removeSkipsWhere accept).1.order = _ := order_removeSkipsWhere
  rw [horder, List.filter_append, List.filter_cons_of_pos (by simpa using hstays)] at horder'
  rw [next?_of_order horder', next?_of_order horder]
  cases post with
  | nil => rfl
  | cons z post =>
    have hz : p.order = (pre ++ [x]) ++ z :: post := by simp [horder]
    have hlands : p.LandsOn (p.removeSkipsWhere accept).1 z _ := landsOn_removeSkipsWhere z
    rw [LandsOn, if_pos (by simp [hz]), after_of_order hz, ← List.head?_filter] at hlands
    rw [List.head?_cons, Option.map_some, ← hlands]
    refine congrArg List.head? (List.filter_congr fun w hw ↦ ?_)
    have hwp : w ∈ p.order := hz ▸ List.mem_append_right _ hw
    simp only [mem_order_removeSkipsWhere, hwp, true_and]

/-! ### Executions -/

section Executions

variable {σ : Type u} {m : Machine σ} {s s' : σ} {f : Flow} {i j : Instruction}

theorem fetch_removeSkipsWhere (hx : x ∈ (p.removeSkipsWhere accept).1.order) :
    (p.removeSkipsWhere accept).1.fetch x =
      (p.fetch x).redirectAll (p.replaceableSkips accept) := by
  obtain ⟨hp, hstays⟩ := mem_order_removeSkipsWhere.1 hx
  exact fetch_eq (by rw [get?_removeSkipsWhere, if_neg hstays, get?_eq_some_fetch hp,
    Option.map_some])

/-- A jump to a skip that goes can be made to what takes its place, without a trace. -/
theorem run_replacement (p : Program) (accept : InstrId → Instruction → Bool) (x : InstrId)
    (m : Machine σ) (s : σ) : p.Run m Instruction.isSkip (some x) s []
      (some (replacement (p.replaceableSkips accept) x)) s := by
  by_cases hx : x ∈ (p.replaceableSkips accept).map Prod.fst
  · obtain ⟨⟨x, b⟩, hxb, rfl⟩ := List.mem_map.1 hx
    obtain ⟨pre, ys, post, horder, hys⟩ := exists_stretch_of_mem_replaceableSkips hxb
    have hskip : ∀ y ∈ x :: ys, (p.fetch y).isSkip = true := fun y hy ↦
      (Bool.and_eq_true_iff.1 (hys y hy).1).1
    rw [replacement_of_mem replaceableSkips_nodup hxb]
    exact run_of_skipsTo (fun _ h ↦ h) (skipsTo_of_skips horder hskip rfl) m s
  · rw [replacement_of_notMem hx]
    exact .nil _ _

/-- An instruction that stays does what it did, up to where it jumps to. -/
theorem acts_redirectAll_iff : m.Acts (i.redirectAll (p.replaceableSkips accept)) s f s' ↔
    ∃ f', m.Acts i s f' s' ∧ f'.map (replacement (p.replaceableSkips accept)) = f := by
  have hwith : i.redirectAll (p.replaceableSkips accept) = _ := i.redirectAll_eq_with
  refine m.acts_iff_of_targets ?_ ?_ ?_ fun t ↦
    Instruction.mem_targets_redirectAll fun s hs ↦ (survivor_of_mem_replaceableSkips hs).2
  all_goals rw [hwith]

theorem emitted_redirectAll (replaced : List (InstrId × InstrId)) :
    (i.redirectAll replaced).emitted Instruction.isSkip = i.emitted Instruction.isSkip := by
  rw [Instruction.redirectAll_eq_with]
  rfl

/-- Control goes on where it went, up to the skips that are gone. -/
theorem follow_removeSkipsWhere (hx : x ∈ (p.removeSkipsWhere accept).1.order) (f : Flow) :
    (p.removeSkipsWhere accept).1.follow x (f.map (replacement (p.replaceableSkips accept))) =
      (p.follow x f).map (replacement (p.replaceableSkips accept)) := by
  cases f with
  | fall => exact next?_removeSkipsWhere hx
  | jump t => rfl
  | stop => rfl

/-- Each step of what is left is an execution of the old program. -/
theorem simulates_of_removed (m : Machine σ) (p : Program)
    (accept : InstrId → Instruction → Bool) :
    Simulates m Instruction.isSkip p (p.removeSkipsWhere accept).1
      fun c d ↦ d = c.map (replacement (p.replaceableSkips accept)) := by
  rintro (_ | x) y i f s s' hR hi ha
  · cases hR
  · obtain rfl := Option.some.inj hR
    have hy := mem_of_get? hi
    have hp := (mem_order_removeSkipsWhere.1 hy).1
    obtain rfl := fetch_eq hi
    rw [fetch_removeSkipsWhere hy] at ha ⊢
    obtain ⟨f', ha', rfl⟩ := acts_redirectAll_iff.1 ha
    rw [emitted_redirectAll]
    exact ⟨_, (run_replacement p accept x m s).trans (.single _ (get?_eq_some_fetch hp) ha'),
      follow_removeSkipsWhere hy f'⟩

/-- Each step of the old program is an execution of what is left: none where a skip went. -/
theorem simulates_by_removed (m : Machine σ) (p : Program)
    (accept : InstrId → Instruction → Bool) :
    Simulates m Instruction.isSkip (p.removeSkipsWhere accept).1 p
      (Function.swap fun c d ↦ d = c.map (replacement (p.replaceableSkips accept))) := by
  rintro d x i f s s' rfl hi ha
  have hp := mem_of_get? hi
  obtain rfl := fetch_eq hi
  by_cases hx : x ∈ (p.replaceableSkips accept).map Prod.fst
  · -- what is left stays where it is while the old program falls through the skip
    obtain ⟨⟨x, b⟩, hxb, rfl⟩ := List.mem_map.1 hx
    obtain ⟨pre, ys, post, horder, hys⟩ := exists_stretch_of_mem_replaceableSkips hxb
    have hskip := (Bool.and_eq_true_iff.1 (hys x List.mem_cons_self).1).1
    obtain ⟨rfl, rfl⟩ := ha.of_isSkip hskip
    obtain ⟨z, hz⟩ : ∃ z, p.next? x = some z := by
      rw [next?_of_order (show p.order = pre ++ x :: (ys ++ b :: post) by simp [horder])]
      cases ys <;> simp
    rw [Instruction.emitted_of_hidden hskip]
    refine ⟨_, .nil _ _, ?_⟩
    show some _ = (p.next? x).map _
    rw [hz, Option.map_some, replacement_of_next? hz hx]
  · have hleft := mem_order_removeSkipsWhere.2 ⟨hp, hx⟩
    have hget := get?_eq_some_fetch hleft
    rw [fetch_removeSkipsWhere hleft] at hget
    have hrun := Run.single Instruction.isSkip hget (acts_redirectAll_iff.2 ⟨f, ha, rfl⟩)
    rw [emitted_redirectAll, follow_removeSkipsWhere hleft] at hrun
    rw [Option.map_some, replacement_of_notMem hx]
    exact ⟨_, hrun, rfl⟩

/-- From what stays, the traces without skips are the same. -/
theorem traces_removeSkipsWhere (m : Machine σ) (hx : x ∈ (p.removeSkipsWhere accept).1.order)
    (s : σ) :
    (p.removeSkipsWhere accept).1.traces m Instruction.isSkip x s =
        p.traces m Instruction.isSkip x s ∧
      (p.removeSkipsWhere accept).1.completeTraces m Instruction.isSkip x s =
        p.completeTraces m Instruction.isSkip x s := by
  refine traces_eq_of_simulates (simulates_of_removed m p accept) (simulates_by_removed m p accept)
    ?_ ?_
  · rintro c d rfl
    rw [Option.map_eq_none_iff]
  · rw [Option.map_some, replacement_of_notMem (mem_order_removeSkipsWhere.1 hx).2]

end Executions

/-! ### Once more -/

/-- Where the targets do not matter, no accepted skip is left that could go. -/
theorem removeSkipsWhere_removeSkipsWhere
    (haccept : ∀ id (i : Instruction) ts, accept id { i with targets := ts } = accept id i) :
    (p.removeSkipsWhere accept).1.removeSkipsWhere accept =
      ((p.removeSkipsWhere accept).1, 0) := by
  have haccepts : ∀ y ∈ (p.removeSkipsWhere accept).1.order,
      (p.removeSkipsWhere accept).1.accepts accept y = p.accepts accept y := fun y hy ↦ by
    rw [accepts, fetch_removeSkipsWhere hy, Instruction.redirectAll_eq_with, haccept]
    rfl
  have hnone : (p.removeSkipsWhere accept).1.replaceableSkips accept = [] := by
    refine List.eq_nil_iff_forall_not_mem.2 fun s hs ↦ ?_
    have hmem := List.mem_map_of_mem (f := Prod.fst) hs
    have hs' : s.1 ∈ (p.removeSkipsWhere accept).1.order :=
      (accepts_of_mem_replaceableSkips (a := s.1) (b := s.2) hs).1
    obtain ⟨hp, hstays⟩ := mem_order_removeSkipsWhere.1 hs'
    obtain ⟨pre, post, horder⟩ := List.append_of_mem hp
    have horder' : (p.removeSkipsWhere accept).1.order = _ := order_removeSkipsWhere
    rw [horder, List.filter_append, List.filter_cons_of_pos (by simpa using hstays)] at horder'
    obtain ⟨ha, x, hx, hnot⟩ := (mem_map_fst_replaceableSkips_iff horder').1 hmem
    rw [haccepts _ hs'] at ha
    rw [haccepts x (horder' ▸ List.mem_append_right _ (List.mem_cons_of_mem _ hx))] at hnot
    exact hstays ((mem_map_fst_replaceableSkips_iff horder).2
      ⟨ha, x, (List.mem_filter.1 hx).1, hnot⟩)
  rw [removeSkipsWhere, hnone]
  rfl

end Program

/-! ### One skip after the other -/

namespace Arena.Links

open Program Arena.Change

variable {a : Arena} {p : Program} {id survivor : InstrId} {front post candidates : List InstrId}

theorem skips_eq (h : a.Links p) (accept : InstrId → Instruction → Bool) :
    a.skips accept = p.order.filter (p.accepts accept) := by
  rw [Arena.skips, h.entries, Program.entries, List.filter_map, List.map_map]
  exact List.map_id _

theorem survivor?_eq (h : a.Links p) (horder : p.order = front ++ id :: post) :
    a.survivor? candidates id = post.find? (· ∉ candidates) := by
  have hcons : p.order = (front ++ [id]) ++ post := by simp [horder]
  have hlength : post.length ≤ a.slots.size := by
    have := p.length_order_le
    rw [horder, List.length_append, List.length_cons] at this
    rw [h.size_slots]
    omega
  rw [Arena.survivor?, h.next?, next?_of_order horder, (h.walks hcons).walk_eq hlength]

theorem run_removeSkip_of_none (h : a.Links p) (horder : p.order = front ++ id :: post)
    (hfind : post.find? (· ∉ candidates) = none) :
    (removeSkip candidates id).run a = .ok 0 a := by
  rw [removeSkip, EStateM.run_bind, EStateM.run_get]
  simp only [h.survivor?_eq horder, hfind]
  rfl

/-- A skip with a survivor behind it is replaced by that. -/
theorem exists_run_removeSkip (h : a.Links p) (horder : p.order = front ++ id :: post)
    (hfind : post.find? (· ∉ candidates) = some survivor) :
    ∃ a', (removeSkip candidates id).run a = .ok 1 a' ∧ a'.Links (p.replace id survivor) := by
  have hmem : id ∈ (p.redirectTargets id survivor fun _ ↦ true).1.order := by simp [horder]
  have hfollows := (redirectTargets_follows id survivor fun _ ↦ true).bind
    fun _ ↦ (remove_follows id).bind fun _ ↦ .pure 1
  have hprogram : (do
      let _ ← Edit.always (·.redirectTargets id survivor fun _ ↦ true)
      let _ ← Edit.remove id
      return 1 : Edit Nat).run p = .ok 1 (p.replace id survivor) := by
    have hredirect : (Edit.always (·.redirectTargets id survivor fun _ ↦ true)).run p =
        .ok (p.redirectTargets id survivor fun _ ↦ true).2
          (p.redirectTargets id survivor fun _ ↦ true).1 := rfl
    rw [EStateM.run_bind, hredirect]
    simp only
    rw [EStateM.run_bind, Edit.run_remove, if_pos hmem]
    rfl
  rw [removeSkip, EStateM.run_bind, EStateM.run_get]
  simp only [h.survivor?_eq horder, hfind]
  exact hfollows.exists_of_run_eq_ok h hprogram

/-- The skips among the last instructions, removed one after the other. Those that went before are
not among them, so behind each of them stands what stood there in the beginning. -/
theorem run_mapM_removeSkip (h : a.Links p) (candidates : List InstrId)
    (horder : p.order = front ++ post) :
    ∃ counts a', ((post.filter (· ∈ candidates)).mapM (removeSkip candidates)).run a =
        .ok counts a' ∧
      counts.foldr (· + ·) 0 =
        (withSurvivors (post.map fun id ↦ (id, decide (id ∈ candidates)))).2.length ∧
      a'.Links ((withSurvivors (post.map fun id ↦ (id, decide (id ∈ candidates)))).2.foldl
        (fun p s ↦ p.replace s.1 s.2) p) := by
  induction post generalizing a p front with
  | nil => exact ⟨[], a, rfl, rfl, h⟩
  | cons id post ih =>
    have hbehind : (withSurvivors (post.map fun id ↦ (id, decide (id ∈ candidates)))).1 =
        post.find? (· ∉ candidates) := by
      rw [fst_withSurvivors, List.find?_map, Option.map_map]
      simp [Function.comp_def]
    have hcons : p.order = (front ++ [id]) ++ post := by simp [horder]
    by_cases hid : id ∈ candidates
    · rw [List.filter_cons_of_pos (by simpa using hid), List.map_cons, decide_eq_true hid,
        snd_withSurvivors_cons_true, hbehind, List.mapM_cons, EStateM.run_bind]
      cases hfind : post.find? (· ∉ candidates) with
      | none =>
        -- nothing goes from here on, so the skips that are still to come stay, too
        rw [hfind] at hbehind
        obtain ⟨counts, a', hrun, hsum, hlinks⟩ := ih h hcons
        rw [snd_withSurvivors_eq_nil hbehind] at hsum hlinks
        rw [run_removeSkip_of_none h horder hfind]
        refine ⟨0 :: counts, a', ?_, ?_, hlinks⟩
        · simp only [EStateM.run_bind, hrun]
          rfl
        · rw [List.foldr_cons, hsum]
          rfl
      | some survivor =>
        obtain ⟨a₁, hrun₁, hlinks₁⟩ := h.exists_run_removeSkip horder hfind
        have herase : (p.replace id survivor).order = front ++ post := order_erase_of_order horder
        obtain ⟨counts, a', hrun, hsum, hlinks⟩ := ih hlinks₁ herase
        rw [hrun₁]
        refine ⟨1 :: counts, a', ?_, ?_, hlinks⟩
        · simp only [EStateM.run_bind, hrun]
          rfl
        · rw [List.foldr_cons, hsum, List.length_cons, Nat.add_comm]
    · rw [List.filter_cons_of_neg (by simpa using hid), List.map_cons, decide_eq_false hid,
        withSurvivors]
      exact ih h hcons

/-- Removing skips from linked slots never fails, and does what it does to the program. -/
theorem exists_run_removeSkipsWhere (h : a.Links p) (accept : InstrId → Instruction → Bool) :
    ∃ a', (Change.removeSkipsWhere accept).run a = .ok (p.removeSkipsWhere accept).2 a' ∧
      a'.Links (p.removeSkipsWhere accept).1 := by
  have hmem : ∀ id ∈ p.order,
      decide (id ∈ p.order.filter (p.accepts accept)) = p.accepts accept id := fun id hid ↦ by
    simp [hid]
  have hmarked : p.order.map (fun id ↦ (id, decide (id ∈ p.order.filter (p.accepts accept)))) =
      p.order.map fun id ↦ (id, p.accepts accept id) :=
    List.map_congr_left fun id hid ↦ by rw [hmem id hid]
  have hskips : p.order.filter (· ∈ p.order.filter (p.accepts accept)) =
      p.order.filter (p.accepts accept) := List.filter_congr hmem
  obtain ⟨counts, a', hrun, hsum, hlinks⟩ :=
    h.run_mapM_removeSkip (p.order.filter (p.accepts accept)) (List.nil_append _).symm
  rw [hskips] at hrun
  rw [hmarked, ← replaceableSkips_eq] at hsum hlinks
  refine ⟨a', ?_, hlinks⟩
  rw [Change.removeSkipsWhere, EStateM.run_bind, EStateM.run_get]
  simp only [h.skips_eq accept, EStateM.run_bind, hrun]
  rw [hsum]
  rfl

end Arena.Links

/-! ### The outcome -/

namespace Program

variable {p : Program} {accept : InstrId → Instruction → Bool}

/-- What the removal of the accepted skips leaves of a program: `q`, with `n` instructions less. -/
structure SkipsRemoved (p : Program) (accept : InstrId → Instruction → Bool) (q : Program)
    (n : Nat) : Prop where
  /-- What goes are the accepted skips behind which something stands that is no accepted skip. -/
  removed_iff : ∀ id ∈ p.order, id ∉ q.order ↔
    p.accepts accept id = true ∧ ∃ x ∈ p.after id, p.accepts accept x = false
  count : n = (p.order.filter (· ∉ q.order)).length
  /-- All others stay in their order, and as they are but for their targets. -/
  sublist : q.order.Sublist p.order
  get? : ∀ id ∈ q.order, ∃ ts, List.Forall₂ (p.LandsOn q) (p.fetch id).targets ts ∧
    q.get? id = some { p.fetch id with targets := ts.eraseDups }
  targetsLive : p.TargetsLive → q.TargetsLive
  /-- From what stays, the executions have the same traces, skips left out. -/
  traces : ∀ {σ : Type u} (m : Machine σ), ∀ x ∈ q.order, ∀ s,
    q.traces m Instruction.isSkip x s = p.traces m Instruction.isSkip x s ∧
      q.completeTraces m Instruction.isSkip x s = p.completeTraces m Instruction.isSkip x s
  /-- If the predicate does not look at targets, nothing more can be removed. -/
  again : (∀ id (i : Instruction) ts, accept id { i with targets := ts } = accept id i) →
    q.removeSkipsWhere accept = (q, 0)
  /-- On linked slots the skips go one after the other, without a fault, and the same is left. -/
  linked : ∀ a : Arena, a.Links p →
    ∃ a', (Arena.Change.removeSkipsWhere accept).run a = .ok n a' ∧ a'.Links q

theorem snd_removeSkipsWhere : (p.removeSkipsWhere accept).2 =
    (p.order.filter (· ∉ (p.removeSkipsWhere accept).1.order)).length := by
  have hperm : ((p.replaceableSkips accept).map Prod.fst).Perm
      (p.order.filter (· ∉ (p.removeSkipsWhere accept).1.order)) := by
    refine (List.perm_ext_iff_of_nodup replaceableSkips_nodup (p.order_nodup.filter _)).2 fun x ↦ ?_
    rw [List.mem_filter, decide_eq_true_eq, mem_order_removeSkipsWhere, not_and_not_right]
    exact ⟨fun hx ↦ ⟨map_fst_replaceableSkips_sublist.subset hx, fun _ ↦ hx⟩,
      fun ⟨hp, hx⟩ ↦ hx hp⟩
  rw [← hperm.length_eq, List.length_map]
  rfl

theorem targetsLive_removeSkipsWhere (h : p.TargetsLive) :
    (p.removeSkipsWhere accept).1.TargetsLive := by
  intro id i hi t ht
  have hid := mem_of_get? hi
  obtain rfl := fetch_eq hi
  rw [fetch_removeSkipsWhere hid] at ht
  obtain ⟨u, hu, rfl⟩ := (Instruction.mem_targets_redirectAll
    fun s hs ↦ (survivor_of_mem_replaceableSkips hs).2).1 ht
  refine mem_order_removeSkipsWhere.2 ⟨?_, replacement_notMem_replaceableSkips u⟩
  by_cases hmem : u ∈ (p.replaceableSkips accept).map Prod.fst
  · obtain ⟨⟨u, b⟩, hub, rfl⟩ := List.mem_map.1 hmem
    rw [replacement_of_mem replaceableSkips_nodup hub]
    exact (survivor_of_mem_replaceableSkips hub).1
  · rw [replacement_of_notMem hmem]
    exact h id _ (get?_eq_some_fetch (mem_order_removeSkipsWhere.1 hid).1) u hu

/-- Removing the accepted skips of a program without repeated targets takes out just those skips
that have something behind them to take their place, and changes nothing of what the program
does. -/
theorem removeSkipsWhere_exact (hnodup : ∀ id ∈ p.order, (p.fetch id).targets.Nodup)
    (accept : InstrId → Instruction → Bool) : SkipsRemoved.{u} p accept
      (p.removeSkipsWhere accept).1 (p.removeSkipsWhere accept).2 where
  removed_iff id hid := by
    obtain ⟨pre, post, horder⟩ := List.append_of_mem hid
    rw [mem_order_removeSkipsWhere, not_and_not_right, imp_iff_right hid,
      mem_map_fst_replaceableSkips_iff horder, after_of_order horder]
  count := snd_removeSkipsWhere
  sublist := by
    rw [order_removeSkipsWhere]
    exact List.filter_sublist
  get? id hid := by
    have hid' := mem_order_removeSkipsWhere.1 hid
    have htargets : ((p.fetch id).redirectAll (p.replaceableSkips accept)).targets = _ :=
      Instruction.targets_redirectAll (fun s hs ↦ (survivor_of_mem_replaceableSkips hs).2)
        (hnodup id hid'.1)
    refine ⟨(p.fetch id).targets.map (replacement (p.replaceableSkips accept)), ?_, ?_⟩
    · rw [List.forall₂_map_right_iff, List.forall₂_same]
      exact fun t _ ↦ landsOn_removeSkipsWhere t
    · rw [get?_eq_some_fetch hid, fetch_removeSkipsWhere hid, Instruction.redirectAll_eq_with,
        htargets]
  targetsLive := targetsLive_removeSkipsWhere
  traces m x hx s := traces_removeSkipsWhere m hx s
  again := removeSkipsWhere_removeSkipsWhere
  linked _ ha := ha.exists_run_removeSkipsWhere accept

/-- Two runs of skips, one of them broken by a skip that is to stay, and skips at the end. A jump
goes to two skips of the first run, to the second one and to the end. -/
def skipRuns : Program :=
  .ofList [{ Instruction.goto ⟨2⟩ (.var ⟨"choice", .bool⟩) with targets := [⟨2⟩, ⟨1⟩, ⟨5⟩, ⟨7⟩] },
    .skip, .skip, .skip, .assert (.var ⟨"safe", .bool⟩), .skip, .endFunction, .skip, .skip]

/-- The first two targets of the jump become one, and the skips at the end stay. -/
theorem removeSkipsWhere_exact_skipRuns :
    (∀ id ∈ skipRuns.order, (skipRuns.fetch id).targets.Nodup) ∧
      ∃ q, skipRuns.removeSkipsWhere (fun id _ ↦ id ≠ ⟨3⟩) = (q, 3) ∧
        SkipsRemoved.{0} skipRuns (fun id _ ↦ id ≠ ⟨3⟩) q 3 ∧
        q.order = [⟨0⟩, ⟨3⟩, ⟨4⟩, ⟨6⟩, ⟨7⟩, ⟨8⟩] ∧ (q.fetch ⟨0⟩).targets = [⟨3⟩, ⟨6⟩, ⟨7⟩] ∧
        q.removeSkipsWhere (fun id _ ↦ id ≠ ⟨3⟩) = (q, 0) := by
  have hnodup : ∀ id ∈ skipRuns.order, (skipRuns.fetch id).targets.Nodup := by decide
  have hcount : (skipRuns.removeSkipsWhere fun id _ ↦ id ≠ ⟨3⟩).2 = 3 := by decide
  have hexact := removeSkipsWhere_exact.{0} hnodup fun id _ ↦ id ≠ ⟨3⟩
  have hagain := hexact.again fun _ _ _ ↦ rfl
  rw [hcount] at hexact
  exact ⟨hnodup, _, Prod.ext rfl hcount, hexact, by decide, by decide, hagain⟩

end Program

end LoopInduction
