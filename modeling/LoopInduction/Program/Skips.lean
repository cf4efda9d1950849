import LoopInduction.Program.Jumps

/-!
# Removing skips

`Program.removeSkipsWhere` takes accepted skips out one after the other. Jumps to a removed skip go
to the first instruction behind it that is to stay. A skip with nothing behind it that stays is
kept, so no jump is ever left without a place to go to.
-/

namespace LoopInduction.Program

/-- Goes through entries, each marked if it is to go. Gives the first one that is to stay, and every
marked one that has such a one behind it, together with that. -/
def withSurvivors : List (InstrId × Bool) → Option InstrId × List (InstrId × InstrId)
  | [] => (none, [])
  | (id, false) :: rest => (some id, (withSurvivors rest).2)
  | (id, true) :: rest => match withSurvivors rest with
    | (none, _) => (none, [])
    | (some survivor, replaced) => (some survivor, (id, survivor) :: replaced)

variable (p : Program)

/-- The accepted skips that can be removed, in order, each with the instruction that takes its
place. -/
def replaceableSkips (accept : InstrId → Instruction → Bool) : List (InstrId × InstrId) :=
  (withSurvivors (p.entries.map fun e ↦ (e.1, e.2.isSkip && accept e.1 e.2))).2

/-- Sends the jumps to an instruction elsewhere and takes it out. -/
def replace (old new : InstrId) : Program :=
  (p.redirectTargets old new fun _ ↦ true).1.erase old

/-- Removes the skips that a predicate accepts; also gives how many. -/
def removeSkipsWhere (accept : InstrId → Instruction → Bool) : Program × Nat :=
  let skips := p.replaceableSkips accept
  (skips.foldl (fun p s ↦ p.replace s.1 s.2) p, skips.length)

/-- Removes all skips; also gives how many. -/
def removeSkips : Program × Nat :=
  p.removeSkipsWhere fun _ _ ↦ true

end LoopInduction.Program
