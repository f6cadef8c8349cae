import PirTuning.BinLoad.MaxLoad
import PirTuning.BinLoad.Scheme
import PirTuning.Checkpoint.Place

/-!
# Bin load simulations

A simulation throws every ball count once per trial and keeps the largest load it
has ever seen for each.  Trial `r` draws from the generator of seed `seed + r`,
one generator for all ball counts, so the answers depend on the seed alone.

Partial answers are saved each time the number of completed trials is a power of
two, and once more at the end of a run whose length is not one.  Both the answers
and the number of completed trials carry over from one run to the next.  A save
that fails stops the run, and what was simulated up to then is kept.
-/

namespace PirTuning.BinLoad

open PirTuning.Checkpoint (Row Failure)

/-! ## Configurations -/

structure Config where
  scheme : Scheme
  ballCounts : List Nat := defaultBallCounts
  runs : Nat := defaultRuns
  seed : Option UInt64 := none
  threads : Option Nat := none
  deriving Repr, DecidableEq

inductive ConfigError where
  | noRuns
  | noBallCounts
  deriving Repr, DecidableEq

def ConfigError.message : ConfigError → String
  | .noRuns => "invalid config: runs must be positive"
  | .noBallCounts => "invalid config: no ball counts"

def Config.check (config : Config) : Except ConfigError Unit :=
  if config.runs = 0 then .error .noRuns
  else if config.ballCounts.isEmpty then .error .noBallCounts
  else .ok ()

/-! ## Trials -/

@[specialize] def trialLoads {σ : Type} [WordSource σ] (bins : Nat) :
    (ballCounts : List Nat) → σ → List Nat
  | [], _ => []
  | balls :: rest, source =>
    let thrown := throwBalls bins balls source
    thrown.maxLoad :: trialLoads bins rest thrown.source

structure Simulation where
  config : Config
  answers : List Nat
  completed : Nat
  deriving Repr, DecidableEq

/-- Partial answers are saved at the powers of two. -/
def isMilestone (trials : Nat) : Bool :=
  1 <<< trials.log2 == trials

namespace Simulation

def ofConfig (config : Config) : Except ConfigError Simulation :=
  match config.check with
  | .error cause => .error cause
  | .ok () =>
    .ok { config := config, answers := config.ballCounts.map fun _ => 0, completed := 0 }

@[specialize] def trial {γ : Type} [WordSource γ] (sim : Simulation) (source : γ) : Simulation :=
  let loads := trialLoads sim.config.scheme.bins sim.config.ballCounts source
  { sim with answers := List.zipWith max sim.answers loads, completed := sim.completed + 1 }

def rows (sim : Simulation) (runs : Nat) : List Row :=
  List.zipWith
    (fun balls load =>
      { runs := runs, bins := sim.config.scheme.bins, balls := balls, maxLoad := load })
    sim.config.ballCounts sim.answers

/-! ## Runs -/

section

variable {m : Type → Type} [Monad m] {γ : Type} [WordSource γ]

/-- Trials from number `r` on, each followed by its checkpoint if it is a
    milestone. -/
@[specialize] def trialsFrom (save : List Row → m (Except Failure Unit)) (seeds : Seeds γ)
    (r : Nat) : (trials : Nat) → Simulation → m (Except Failure Unit × Simulation)
  | 0, sim => pure (.ok (), sim)
  | trials + 1, sim => do
    let sim' := sim.trial (seeds.source r)
    if isMilestone sim'.completed then
      match ← save (sim'.rows sim'.completed) with
      | .error cause => pure (.error cause, sim')
      | .ok () => trialsFrom save seeds (r + 1) trials sim'
    else
      trialsFrom save seeds (r + 1) trials sim'

/-- One run: all trials of the configuration, and a checkpoint at the end if
    their number is no milestone. -/
@[specialize] def run (save : List Row → m (Except Failure Unit)) (seeds : Seeds γ)
    (sim : Simulation) : m (Except Failure (List Nat) × Simulation) := do
  let (result, sim') ← trialsFrom save seeds 0 sim.config.runs sim
  match result with
  | .error cause => pure (.error cause, sim')
  | .ok () =>
    -- a number that is a milestone is left to the checkpoints of the trials
    if isMilestone sim'.config.runs then
      pure (.ok sim'.answers, sim')
    else
      match ← save (sim'.rows sim'.config.runs) with
      | .error cause => pure (.error cause, sim')
      | .ok () => pure (.ok sim'.answers, sim')

end

end Simulation

/-! ## Saving -/

def noSave {m : Type → Type} [Monad m] (_ : List Row) : m (Except Failure Unit) :=
  pure (.ok ())

def saveAtPlace (rows : List Row) : StateM Checkpoint.Place (Except Failure Unit) :=
  fun place =>
    match place.append rows with
    | .error cause => (.error cause, place)
    | .ok place' => (.ok (), place')

end PirTuning.BinLoad
