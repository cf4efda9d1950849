import LoopInduction.Proofs.Conversion.Handling
import LoopInduction.Proofs.Conversion.Success

/-!
# What a run keeps of its input

A run adds instructions and rewrites targets, and it does so whichever way it comes out. Of the
instructions that were there before, none is lost, none is moved to the other side of another, and
nothing but the targets and the numbers changes, except for one thing: an assertion of the front end
that lies in a discovered loop may become an assumption (`Functions.run_keeps_originals`). What is
added says so by its origin. No step takes out anything but skips of the copy that it has just made
itself (`Program.grows_withIteration`), so nothing is asked of the loops.

## Main definitions

* `Instruction.Alike` : an instruction is another one up to kind, origin, targets and numbers.
* `Program.Covered` : an instruction lies in the body of a loop.

## Main results

* `Functions.run_keeps_originals` : a run keeps the instructions of all functions.
-/

namespace LoopInduction

namespace Instruction

variable {i j : Instruction}

/-- `j` is `i` up to kind, origin, targets and numbers. -/
structure Alike (i j : Instruction) : Prop where
  guard : j.guard = i.guard
  code : j.code = i.code
  location : j.location = i.location
  function : j.function = i.function

instance : Decidable (Alike i j) :=
  decidable_of_iff (j.guard = i.guard ∧ j.code = i.code ∧ j.location = i.location ∧
      j.function = i.function)
    ⟨fun ⟨hg, hc, hl, hf⟩ ↦ ⟨hg, hc, hl, hf⟩, fun h ↦ ⟨h.guard, h.code, h.location, h.function⟩⟩

theorem Retained.alike (h : Retained i j) : Alike i j := by
  rw [h.eq_with]
  exact ⟨rfl, rfl, rfl, rfl⟩

theorem Alike.refl (i : Instruction) : Alike i i :=
  ⟨rfl, rfl, rfl, rfl⟩

theorem Alike.trans {k : Instruction} (h : Alike i j) (h' : Alike j k) : Alike i k where
  guard := h'.guard.trans h.guard
  code := h'.code.trans h.code
  location := h'.location.trans h.location
  function := h'.function.trans h.function

end Instruction

namespace Renumbered

variable {p q : Program} (h : Renumbered p q) (id : InstrId)

include h

theorem alike : (p.fetch id).Alike (q.fetch id) := by
  obtain ⟨location, target, hfetch⟩ := h.exists_fetch_eq id
  rw [hfetch]
  exact ⟨rfl, rfl, rfl, rfl⟩

theorem origin_eq : (q.fetch id).origin = (p.fetch id).origin := by
  obtain ⟨location, target, hfetch⟩ := h.exists_fetch_eq id
  rw [hfetch]

theorem kind_eq : (q.fetch id).kind = (p.fetch id).kind := by
  obtain ⟨location, target, hfetch⟩ := h.exists_fetch_eq id
  rw [hfetch]

end Renumbered

namespace Program

variable {p₀ p q : Program} {s : Setup} {l : Loop} {loops : List Loop} {id : InstrId}

/-- The instruction lies in the body of one of the loops. -/
def Covered (p : Program) (loops : List Loop) (id : InstrId) : Prop :=
  ∃ l ∈ loops, ∃ body, p.range l.head l.exit = .ok body ∧ id ∈ body

/-- The program keeps another one, in which only covered instructions may have changed kind. -/
structure KeepsOriginals (p₀ : Program) (s : Setup) (loops : List Loop) (p : Program) : Prop where
  extension : p₀.Extends p
  kind : ∀ id ∈ p₀.order, (p.fetch id).kind = (p₀.fetch id).kind ∨
    s.config.convertAsserts = true ∧ p₀.Covered loops id

theorem KeepsOriginals.refl (s : Setup) (loops : List Loop) (p : Program) :
    p.KeepsOriginals s loops p where
  extension := .refl p
  kind _ _ := .inl rfl

theorem KeepsOriginals.grows (h : p₀.KeepsOriginals s loops p) (hgrows : p.Grows q) :
    p₀.KeepsOriginals s loops q where
  extension := h.extension.trans hgrows.extension
  kind id hid := by
    obtain ⟨ts, hts⟩ := hgrows.old id (h.extension.mem hid)
    rw [hts]
    exact h.kind id hid

/-- Dealing with a loop changes the kind of what lies in it at most. -/
theorem KeepsOriginals.handled (h : p₀.KeepsOriginals s loops p) (hl : l ∈ loops)
    (hrange : ∃ body, p₀.range l.head l.exit = .ok body) (hq : Handled s l p q) :
    p₀.KeepsOriginals s loops q := by
  cases hq with
  | grown hgrows => exact h.grows hgrows
  | assumed hgrows hasserts hids _ hassumed =>
    have hr := h.grows hgrows
    refine ⟨hr.extension.trans hassumed.extension, fun id hid ↦ ?_⟩
    have hget := hassumed.get? id (hr.extension.mem hid)
    split at hget
    · next hc =>
      obtain ⟨body, hbody⟩ := hrange
      exact .inr ⟨hasserts, l, hl, body, hbody,
        (mem_range_iff_of_sublist hr.extension.sublist hbody hids hid).1 hc.1⟩
    · rw [fetch_eq hget]
      exact hr.kind id hid

/-- The conversion of a function keeps its instructions, whichever way it comes out. -/
theorem keepsOriginals_stateAfter (s : Setup) (discovery : Discovery) (name : String)
    (p : Program) : p.KeepsOriginals s (discovery name p)
      (EStateM.stateAfter (convertFunction s discovery name) p) := by
  refine ((ends_convertFunction (.refl s _ p) fun hall l hl q r hq hr ↦ ?_).mono (fun _ _ h ↦ h)
    fun _ _ h ↦ h.1).stateAfter
  exact hq.handled hl (hall l hl) hr

end Program

/-- A run of either mode and with either outcome keeps the instructions of every function, in their
order. Only an assertion of the front end in the body of a discovered loop may have become an
assumption, if that is switched on. All that was added is scaffolding or a copy. -/
theorem Functions.run_keeps_originals {fs : Functions} {s : Setup} {discovery : Discovery}
    {r : Run} (hr : r = fs.run s discovery ∨ r = fs.runConcurrently s discovery) :
    r.functions.byName.names = fs.byName.names ∧
    ∀ name f, fs.get? name = some f → ∃ g, r.functions.get? name = some g ∧
      g.bodyAvailable = f.bodyAvailable ∧
      f.body.order.Sublist g.body.order ∧
      (∀ id ∈ f.body.order, (f.body.fetch id).Alike (g.body.fetch id) ∧
        (g.body.fetch id).origin = (f.body.fetch id).origin ∧
        ((g.body.fetch id).kind = (f.body.fetch id).kind ∨
          (f.body.fetch id).isSourceAssertion = true ∧ (g.body.fetch id).isAssume = true ∧
            s.config.convertAsserts = true ∧ f.bodyAvailable = true ∧
            f.body.Covered (discovery name f.body) id)) ∧
      (∀ id ∈ g.body.order, id ∉ f.body.order →
        (g.body.fetch id).origin = .scaffold ∨ (g.body.fetch id).origin = .copy) ∧
      (f.bodyAvailable = false →
        g.body = f.body ∨ ∃ location, g.body = f.body.numbered location) := by
  refine ⟨names_of_run hr, fun name f hf ↦ ?_⟩
  obtain ⟨g, hg, hleft⟩ := exists_left_of_run hr hf
  obtain ⟨q, hq, hg'⟩ := hleft.body
  have hnumbered := Renumbered.of_eq_or hg'
  have hkeeps : f.body.KeepsOriginals s (discovery name f.body) q ∧
      (f.bodyAvailable = true ∨ q = f.body) := by
    rcases hq with rfl | ⟨havailable, rfl⟩
    · exact ⟨.refl s _ _, .inr rfl⟩
    · exact ⟨Program.keepsOriginals_stateAfter s discovery name f.body, .inl havailable⟩
  have hext := hkeeps.1.extension
  refine ⟨g, hg, hleft.bodyAvailable, ?_, fun id hid ↦ ?_, fun id hid hnew ↦ ?_,
    hleft.of_bodyAvailable_eq_false⟩
  · rw [hnumbered.order]
    exact hext.sublist
  · have hretained := hext.retained id hid
    refine ⟨hretained.alike.trans (hnumbered.alike id),
      (hnumbered.origin_eq id).trans hretained.origin_eq, ?_⟩
    rw [Instruction.isAssume, hnumbered.kind_eq]
    rcases hretained.kind with hsame | ⟨hassert, hassume⟩
    · exact .inl hsame
    · refine .inr ⟨hassert, by rw [hassume]; rfl, ?_⟩
      have hchanged : (q.fetch id).kind ≠ (f.body.fetch id).kind := by
        rw [hassume, (Instruction.isSourceAssertion_iff.1 hassert).1]
        decide
      obtain ⟨hasserts, hcovered⟩ := (hkeeps.1.kind id hid).resolve_left hchanged
      refine ⟨hasserts, hkeeps.2.resolve_right fun heq ↦ hchanged ?_, hcovered⟩
      rw [heq]
  · rw [hnumbered.order] at hid
    have horigin := hext.added id hid hnew
    rw [hnumbered.origin_eq]
    cases ho : (q.fetch id).origin with
    | source => exact absurd ho horigin
    | scaffold => exact .inl rfl
    | copy => exact .inr rfl

/-- Two loops of `nestedLoops` as a wrong discovery may give them: the inner one ends at a skip. -/
def nestedLoops.brokenLoops : List Loop :=
  [⟨⟨0⟩, ⟨5⟩, []⟩, ⟨⟨1⟩, ⟨4⟩, []⟩]

/-- The outer loop is converted, then the run stops at the inner one. -/
theorem Functions.run_keeps_originals_brokenLoops :
    let r := (single "main" nestedLoops).runConcurrently { config := .full }
      fun _ _ ↦ nestedLoops.brokenLoops
    (∃ fault, r.progress.outcome = .error fault) ∧
      ∃ g, r.functions.get? "main" = some g ∧ nestedLoops.order.Sublist g.body.order ∧
        (nestedLoops.fetch ⟨2⟩).Alike (g.body.fetch ⟨2⟩) ∧ (g.body.fetch ⟨2⟩).isAssume = true ∧
        nestedLoops.Covered nestedLoops.brokenLoops ⟨2⟩ := by
  intro r
  have hstops : r.progress.outcome.toOption = none := by decide +kernel
  obtain ⟨-, hkeeps⟩ := run_keeps_originals (r := r) (.inr rfl)
  obtain ⟨g, hg, -, hsublist, hold, -⟩ := hkeeps "main" (.ofBody nestedLoops) rfl
  have hassume : (r.functions.get? "main").map (fun g ↦ (g.body.fetch ⟨2⟩).isAssume) =
      some true := by decide +kernel
  rw [hg, Option.map_some, Option.some.injEq] at hassume
  obtain ⟨halike, -, hkind⟩ := hold ⟨2⟩ (by decide)
  refine ⟨exists_error_of_toOption hstops, g, hg, hsublist, halike, hassume, ?_⟩
  rcases hkind with hsame | ⟨-, -, -, -, hcovered⟩
  · rw [Instruction.isAssume, hsame] at hassume
    cases hassume
  · exact hcovered

end LoopInduction
