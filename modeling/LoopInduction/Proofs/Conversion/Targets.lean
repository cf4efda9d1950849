import LoopInduction.Proofs.Conversion.Originals
import LoopInduction.Proofs.Program.Listing

/-!
# Targets stay sound

If in every function all targets are there and none is listed twice, this is so after a run too,
whatever the loops are, and also of a function whose conversion stops halfway. Every change on the
way is one by which a program grows, and the removal of skips sends each jump to an instruction that
stays (`Program.Sound.removeSkipsWhere`). Hence the check of the targets at the end of a conversion
finds nothing, and all that a run leaves can be stored and read back (`Functions.sound_of_run`).

## Main results

* `Functions.sound_of_run` : a run keeps targets sound.
-/

namespace LoopInduction

variable {p q : Program} {s : Setup} {l : Loop} {ids : List InstrId} {discovery : Discovery}
  {name : String}

theorem Assumed.sound (h : Assumed ids p q) (hp : p.Sound) : q.Sound := by
  intro id hid
  rw [h.order] at hid
  rw [h.targets_eq hid]
  exact (hp id hid).of_sublist (by rw [h.order])

theorem Renumbered.sound (h : Renumbered p q) (hp : p.Sound) : q.Sound := by
  intro id hid
  rw [h.order] at hid
  obtain ⟨location, target, hfetch⟩ := h.exists_fetch_eq id
  rw [hfetch]
  exact (hp id hid).of_sublist (by rw [h.order])

namespace Program

/-- Dealing with a loop keeps targets sound. -/
theorem Handled.sound (h : Handled s l p q) (hp : p.Sound) : q.Sound := by
  cases h with
  | grown hgrows => exact hgrows.sound hp
  | assumed hgrows _ _ _ hassumed => exact hassumed.sound (hgrows.sound hp)

/-- The conversion of a function keeps targets sound, and never finds that they are not. -/
theorem Sound.ends_convertFunction (hp : p.Sound) :
    EStateM.Ends (convertFunction s discovery name) p (fun _ ↦ Sound)
      (fun e q ↦ q.Sound ∧ e.fault.isDanglingJump = false) :=
  (LoopInduction.ends_convertFunction hp fun _ _ _ _ _ hq hr ↦ hr.sound hq).mono
    (fun _ _ h ↦ h) fun _ _ ⟨hq, hdangling⟩ ↦
      ⟨hq, Bool.eq_false_iff.2 fun he ↦ hdangling he hq.targetsLive⟩

end Program

/-- The check of the targets never makes the conversion of a function stop. -/
theorem Function.isDanglingJump_of_convert {f : Function} {fault : LoopFault} (hf : f.body.Sound)
    (h : (f.convert s discovery name).1 = .error fault) : fault.fault.isDanglingJump = false := by
  rw [convert] at h
  split at h
  · split at h
    · cases h
    · next hrun =>
      cases h
      exact (hf.ends_convertFunction.of_run_error hrun).2
  · cases h

/-- Where all targets of all functions are there and listed once, they are so after a run of either
mode and with either outcome. The functions can be written to a listing and read back then, and no
conversion of a function stops because of a jump to nowhere. -/
theorem Functions.sound_of_run {fs : Functions} {r : Run}
    (hr : r = fs.run s discovery ∨ r = fs.runConcurrently s discovery)
    (hsound : ∀ name f, fs.get? name = some f → f.body.Sound) :
    (∀ name g, r.functions.get? name = some g → g.body.Sound ∧
      ∃ q, Listing.toProgram g.body.entries = .ok q ∧
        q.entries = g.body.entries.map (Listing.renumbered g.body.entries)) ∧
    ∀ name f, fs.get? name = some f → ∀ fault, (f.convert s discovery name).1 = .error fault →
      fault.fault.isDanglingJump = false := by
  refine ⟨fun name g hg ↦ ?_, fun name f hf fault ↦
    Function.isDanglingJump_of_convert (hsound name f hf)⟩
  obtain ⟨f, hf, hleft⟩ := exists_left_of_mem_run hr hg
  obtain ⟨q, hq, hnumbered⟩ := hleft.body
  have hqsound : q.Sound := by
    rcases hq with rfl | ⟨-, rfl⟩
    · exact hsound name f hf
    · exact ((hsound name f hf).ends_convertFunction.mono (fun _ _ h ↦ h)
        fun _ _ h ↦ h.1).stateAfter
  have hgsound := (Renumbered.of_eq_or hnumbered).sound hqsound
  exact ⟨hgsound, Program.exists_toProgram_entries hgsound.targetsLive⟩

/-- What is left of a loop whose conversion stops halfway can be stored and read back. -/
theorem Functions.sound_of_run_brokenLoops :
    let r := (single "main" nestedLoops).run { config := .full } fun _ _ ↦ nestedLoops.brokenLoops
    (∃ fault, r.progress.outcome = .error fault) ∧
      ∃ g, r.functions.get? "main" = some g ∧ g.body ≠ nestedLoops ∧ g.body.Sound ∧
        ∃ q, Listing.toProgram g.body.entries = .ok q := by
  intro r
  have hstops : r.progress.outcome.toOption = none := by decide +kernel
  obtain ⟨hsound, -⟩ := sound_of_run (r := r) (.inl rfl) fun name f hf ↦ by
    rw [(eq_of_get?_single hf).2]
    decide
  obtain ⟨g, hg, -⟩ := exists_left_of_run (r := r) (.inl rfl)
    (show (single "main" nestedLoops).get? "main" = some (.ofBody nestedLoops) from rfl)
  have hchanged : (r.functions.get? "main").map (fun g ↦ g.body.size) = some 15 := by
    decide +kernel
  obtain ⟨hsound, q, hq, -⟩ := hsound "main" g hg
  refine ⟨exists_error_of_toOption hstops, g, hg, fun heq ↦ ?_, hsound, q, hq⟩
  rw [hg, Option.map_some, heq] at hchanged
  exact absurd hchanged (by decide)

end LoopInduction
