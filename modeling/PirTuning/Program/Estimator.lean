import PirTuning.BinLoad.Simulation
import PirTuning.Program.Arguments
import PirTuning.Program.Outcome
import PirTuning.Workers

/-!
# The bin load program

Simulates the bin loads of a scheme, saves checkpoints on the way, and prints the
largest load per ball count.  Saving to a path and picking a seed are parameters, in
whatever monad they take place.  So are the generator of a seed and what several workers
make of a run.
-/

namespace PirTuning.Program.Estimator

open PirTuning.BinLoad
open PirTuning.Checkpoint (Row Failure)

def grammar : Grammar :=
  { options :=
      [("runs", .word64), ("seed", .word64), ("output", .path), ("threads", .word64),
        ("verbose", .nothing)]
    required := 1
    allowed := 1 }

def configOf (scheme : Scheme) (args : Arguments) : Config :=
  { scheme := scheme
    runs := (args.number? "runs").getD defaultRuns
    seed := (args.number? "seed").map UInt64.ofNat
    threads := args.number? "threads" }

def outputOf (scheme : Scheme) (args : Arguments) : String :=
  (args.text? "output").getD scheme.checkpointFile

def resultLines (sim : Simulation) (answers : List Nat) (output : String) : List String :=
  List.zipWith
      (fun balls load => s!"bins={sim.config.scheme.bins} balls={balls} max_load={load}")
      sim.config.ballCounts answers
    ++ [s!"done. runs={sim.completed}, checkpoints in {output}"]

section

variable {m : Type → Type} [Monad m] {γ : Type} [WordSource γ]

/-- What it takes to run a simulation: a way to save, the first seed, and the simulation. -/
abbrev SimulationRun (m : Type → Type) : Type :=
  (List Row → m (Except Failure Unit)) → UInt64 → Simulation →
    m (Except Failure (List Nat) × Simulation)

@[specialize] def runAlone (seeded : UInt64 → γ) : SimulationRun m :=
  fun save seed sim => sim.run save ⟨seeded, seed⟩

@[specialize] def simulate (workers : Workers (SimulationRun m)) (seeded : UInt64 → γ)
    (save : String → List Row → m (Except Failure Unit)) (pickSeed : m UInt64) (scheme : Scheme)
    (args : Arguments) : m Outcome := do
  let output := outputOf scheme args
  match Simulation.ofConfig (configOf scheme args) with
  | .error cause => pure (.failure "invalid simulation config" (some cause.message))
  | .ok sim =>
    let seed ←
      match sim.config.seed with
      | some seed => pure seed
      | none => pickSeed
    let (result, sim') ←
      workers.run sim.config.threads (runAlone seeded) (save output) seed sim
    match result with
    | .error cause =>
      pure (.failure s!"simulation failed (checkpoints in {output})" (some cause.message))
    | .ok answers => pure (.success (resultLines sim' answers output))

/-- Run the program on its arguments. -/
@[specialize] def run (workers : Workers (SimulationRun m)) (seeded : UInt64 → γ)
    (save : String → List Row → m (Except Failure Unit)) (pickSeed : m UInt64)
    (words : List String) : m Outcome :=
  match grammar.parse words with
  | .error .help => pure .helped
  | .error .misuse => pure .misused
  | .ok args =>
    match Scheme.ofName (args.positionals.headD "") with
    | .error cause => pure (.failure cause.message none)
    | .ok scheme => simulate workers seeded save pickSeed scheme args

end

end PirTuning.Program.Estimator
