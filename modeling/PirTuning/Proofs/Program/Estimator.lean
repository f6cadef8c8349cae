import PirTuning.Program.Estimator
import PirTuning.Program.Tree
import PirTuning.Proofs.BinLoad.FirstRun
import PirTuning.Proofs.Program.Files

/-!
# What the bin load program leaves behind

The program checks its arguments before it touches a file.  From then on all that it does to
any file is to add text to its output file, whether its saves succeed or not, and if they do
the last lines of that text are the loads that it prints.
-/

namespace PirTuning.Program.Estimator

open PirTuning.BinLoad
open PirTuning.Checkpoint (Row Failure)
open PirTuning.Program.FileSystem (Behind Written)

variable {γ : Type} [WordSource γ] {σ : Type} {workers : Workers (SimulationRun (StateM σ))}
  {seeded : UInt64 → γ} {save : String → List Row → StateM σ (Except Failure Unit)} {start : σ}
  {scheme : Scheme} {args : Arguments} {words : List String}

/-! ## Arguments -/

/-- Number of trials that the arguments ask for. -/
def runsOf (args : Arguments) : Nat :=
  (args.number? "runs").getD defaultRuns

/-- The seed of the arguments, or else the one that was picked. -/
def seedOf (args : Arguments) (picked : UInt64) : UInt64 :=
  ((args.number? "seed").map UInt64.ofNat).getD picked

theorem run_of_accepted (parsed : grammar.parse words = .ok args)
    (known : Scheme.ofName (args.positionals.headD "") = .ok scheme) (pickSeed : StateM σ UInt64) :
    run workers seeded save pickSeed words
      = simulate workers seeded save pickSeed scheme args := by
  rw [run, parsed]
  simp only [known]

theorem made_of_runs (scheme : Scheme) (some_run : runsOf args ≠ 0) :
    Simulation.ofConfig (configOf scheme args)
      = .ok ⟨configOf scheme args, (configOf scheme args).ballCounts.map fun _ => 0, 0⟩ :=
  Simulation.ofConfig_eq_ok_iff.mpr ⟨some_run, List.cons_ne_nil _ _, rfl⟩

/-! ## Simulations -/

/-- The generators of the trials. -/
def seedsOf (seeded : UInt64 → γ) (args : Arguments) (picked : UInt64) : Seeds γ :=
  ⟨seeded, seedOf args picked⟩

/-- The largest loads that a simulation comes to. -/
def loadsOf (seeded : UInt64 → γ) (scheme : Scheme) (args : Arguments) (picked : UInt64) :
    List Nat :=
  largestLoads (configOf scheme args) (seedsOf seeded args picked) (Finset.range (runsOf args))

/-- What a finished simulation prints. -/
def printedLines (scheme : Scheme) (args : Arguments) (loads : List Nat) : List String :=
  List.zipWith (fun balls load => s!"bins={scheme.bins} balls={balls} max_load={load}")
      defaultBallCounts loads
    ++ [s!"done. runs={runsOf args}, checkpoints in {outputOf scheme args}"]

theorem simulate_of_no_run (no_run : runsOf args = 0) (pickSeed : StateM σ UInt64) :
    simulate workers seeded save pickSeed scheme args
      = pure (.failure "invalid simulation config" (some ConfigError.noRuns.message)) := by
  have refused : Simulation.ofConfig (configOf scheme args) = .error .noRuns := by
    have check : (configOf scheme args).check = .error .noRuns := if_pos no_run
    rw [Simulation.ofConfig, check]
  rw [simulate, refused]

theorem simulate_eq (one_worker : workers.count (args.number? "threads") = 1) (picked : UInt64)
    {sim : Simulation} (made : Simulation.ofConfig (configOf scheme args) = .ok sim) :
    simulate workers seeded save (pure picked) scheme args = (do
      let (result, sim') ← sim.run (save (outputOf scheme args)) (seedsOf seeded args picked)
      match result with
      | .error cause =>
        pure (.failure s!"simulation failed (checkpoints in {outputOf scheme args})"
          (some cause.message))
      | .ok answers => pure (.success (resultLines sim' answers (outputOf scheme args)))) := by
  have config : sim.config = configOf scheme args :=
    (Simulation.wellFormed_of_ofConfig made).same
  have alone : workers.run (configOf scheme args).threads (runAlone seeded) = runAlone seeded :=
    Workers.run_of_one one_worker _
  rw [simulate, made]
  simp only [config, alone]
  -- the seed that was picked counts only if none was given
  cases given : args.number? "seed" with
  | none =>
    have unseeded : (configOf scheme args).seed = none :=
      congrArg (Option.map UInt64.ofNat) given
    have seed_eq : seedOf args picked = picked := by
      rw [seedOf, given, Option.map_none, Option.getD_none]
    rw [unseeded, seedsOf, seed_eq]
    exact pure_bind picked _
  | some seed =>
    have seeded_eq : (configOf scheme args).seed = some (UInt64.ofNat seed) :=
      congrArg (Option.map UInt64.ofNat) given
    have seed_eq : seedOf args picked = UInt64.ofNat seed := by
      rw [seedOf, given, Option.map_some, Option.getD_some]
    rw [seeded_eq, seedsOf, seed_eq]
    exact pure_bind (UInt64.ofNat seed) _

/-! ## Texts -/

/-- The text that a finished simulation adds to its file. -/
def addedText (seeded : UInt64 → γ) (scheme : Scheme) (args : Arguments) (picked : UInt64) :
    String :=
  savedText (configOf scheme args) (seedsOf seeded args picked)

/-- A text ends with the loads of the given trials, a line for each ball count. -/
def EndsWithLoads (scheme : Scheme) (runs : Nat) (loads : List Nat) (text : String) : Prop :=
  ∃ earlier : String, text = earlier ++ String.join
    (List.zipWith (fun balls load => s!"{runs},{scheme.bins},{balls},{load}\n")
      defaultBallCounts loads)

theorem length_loadsOf (seeded : UInt64 → γ) (scheme : Scheme) (args : Arguments)
    (picked : UInt64) : (loadsOf seeded scheme args picked).length = 24 :=
  length_largestLoads _ _

theorem endsWithLoads_addedText (some_run : runsOf args ≠ 0) (seeded : UInt64 → γ)
    (scheme : Scheme) (picked : UInt64) :
    EndsWithLoads scheme (runsOf args) (loadsOf seeded scheme args picked)
      (addedText seeded scheme args picked) := by
  -- the last label is the length of the run, whether or not that is a milestone
  have labels : saveLabels (configOf scheme args).runs = _ := saveLabels_concat some_run
  rw [addedText, savedText, labels, List.flatMap_append, List.flatMap_singleton,
    String.join_append]
  exact ⟨_, rfl⟩

/-! ## Runs in a file system -/

section

variable {ι : Type} [DecidableEq ι]

section

variable (system : FileSystem ι) (seeded : UInt64 → γ) (scheme : Scheme) (args : Arguments)
  (picked : UInt64) (files : Files ι)

/-- How a simulation in a file system can end: there is nothing to simulate, a save has
    failed, or everything that was to be saved is behind the old content of the output file. -/
inductive Ended : Outcome × Files ι → Prop where
  | noRun (no_run : runsOf args = 0) :
      Ended (.failure "invalid simulation config" (some ConfigError.noRuns.message), files)
  | stopped (some_run : runsOf args ≠ 0) (cause : Failure) {added : ByteArray}
      {files' : Files ι} (written : system.Written (outputOf scheme args) files added files') :
      Ended (.failure s!"simulation failed (checkpoints in {outputOf scheme args})"
        (some cause.message), files')
  | finished (some_run : runsOf args ≠ 0) {files' : Files ι}
      (behind : system.Behind (outputOf scheme args) files
        (addedText seeded scheme args picked).toUTF8 files') :
      Ended (.success (printedLines scheme args (loadsOf seeded scheme args picked)), files')

end

variable {system : FileSystem ι} {workers : Workers (SimulationRun (StateM (Files ι)))}
  {picked : UInt64} {files : Files ι} {ended : Outcome × Files ι}

theorem ended_simulate (one_worker : workers.count (args.number? "threads") = 1) :
    Ended system seeded scheme args picked files
      (simulate workers seeded system.save (pure picked) scheme args files) := by
  by_cases no_run : runsOf args = 0
  · rw [simulate_of_no_run no_run]
    exact .noRun no_run
  · have made := made_of_runs scheme no_run
    have saved := Simulation.renderRows_saves (seedsOf seeded args picked) made
    have finish := Simulation.finish_of_made (seedsOf seeded args picked) made
    rw [simulate_eq one_worker picked made]
    simp only [bind, StateT.bind]
    rcases FileSystem.run_cases system (outputOf scheme args)
        (seedsOf seeded args picked) files
        (Simulation.saves_ne_nil (seedsOf seeded args picked) made) with
      ⟨cause, state, added, files', failed, written⟩ | ⟨files', answered, behind⟩
    · rw [failed]
      exact .stopped no_run cause written
    · rw [answered, finish]
      rw [FileSystem.savedData, saved] at behind
      exact .finished no_run behind

/-- Where the output file takes everything the program succeeds. -/
theorem exit_simulate_of_accepts (one_worker : workers.count (args.number? "threads") = 1)
    (some_run : runsOf args ≠ 0) (accepts : system.Accepts (outputOf scheme args)) :
    (simulate workers seeded system.save (pure picked) scheme args files).1.exit = 0 := by
  have made := made_of_runs scheme some_run
  have answers := (FileSystem.works_of_accepts accepts).run (s := files) trivial
    (seedsOf seeded args picked)
    ⟨configOf scheme args, (configOf scheme args).ballCounts.map fun _ => 0, 0⟩
  rw [simulate_eq one_worker picked made]
  simp only [bind, StateT.bind]
  cases ran : Simulation.run (system.save (outputOf scheme args)) (seedsOf seeded args picked)
      ⟨configOf scheme args, (configOf scheme args).ballCounts.map fun _ => 0, 0⟩ files with
  | mk result files' =>
    rw [ran] at answers
    subst answers
    rfl

theorem Ended.exists_written (ends : Ended system seeded scheme args picked files ended) :
    ∃ added, system.Written (outputOf scheme args) files added ended.2 := by
  cases ends with
  | noRun => exact ⟨_, .untouched⟩
  | stopped _ _ written => exact ⟨_, written⟩
  | finished _ behind => exact ⟨_, .behind behind⟩

theorem Ended.of_no_run (ends : Ended system seeded scheme args picked files ended)
    (no_run : runsOf args = 0) : ended.2 = files ∧ ended.1.exit = 1 := by
  cases ends with
  | noRun => exact ⟨rfl, rfl⟩
  | stopped some_run => exact absurd no_run some_run
  | finished some_run => exact absurd no_run some_run

/-- A success: the text behind the old content of the output file ends with the loads that are
    printed. -/
theorem Ended.of_exit_eq_zero (ends : Ended system seeded scheme args picked files ended)
    (exit : ended.1.exit = 0) :
    ∃ file loads added, system.target files (outputOf scheme args) = .ok file ∧
      runsOf args ≠ 0 ∧ loads.length = 24 ∧
      ended.1.out = Outcome.unlines (printedLines scheme args loads) ∧
      EndsWithLoads scheme (runsOf args) loads added ∧
      ended.2.lookup file = some (files.contentOf file ++ added.toUTF8) := by
  cases ends with
  | noRun => cases exit
  | stopped => cases exit
  | finished some_run behind =>
    obtain ⟨file, target, rfl⟩ := behind
    exact ⟨file, _, _, target, some_run, length_loadsOf seeded scheme args picked, rfl,
      endsWithLoads_addedText some_run seeded scheme picked, Files.lookup_put_self _ _ _⟩

end

/-! ## Refused arguments -/

theorem state_of_refused_words
    (refused : ∀ args scheme, grammar.parse words = .ok args →
      Scheme.ofName (args.positionals.headD "") ≠ .ok scheme) (pickSeed : StateM σ UInt64) :
    (run workers seeded save pickSeed words start).2 = start := by
  rw [run]
  cases parsed : grammar.parse words with
  | error refusal => cases refusal <;> rfl
  | ok args =>
    cases known : Scheme.ofName (args.positionals.headD "") with
    | error cause =>
      simp only [known]
      rfl
    | ok scheme => exact absurd known (refused args scheme parsed)

theorem run_of_unknown {cause : SchemeError} (parsed : grammar.parse words = .ok args)
    (unknown : Scheme.ofName (args.positionals.headD "") = .error cause)
    (pickSeed : StateM σ UInt64) :
    run workers seeded save pickSeed words start = (.failure cause.message none, start) := by
  rw [run, parsed]
  simp only [unknown]
  rfl

/-! ## The whole program -/

section

variable {ι : Type} [DecidableEq ι]

/-- How the program ends in a file system. -/
def runIn (system : FileSystem ι) (workers : Workers (SimulationRun (StateM (Files ι))))
    (seeded : UInt64 → γ) (picked : UInt64) (words : List String) (files : Files ι) :
    Outcome × Files ι :=
  run workers seeded system.save (pure picked) words files

variable {system : FileSystem ι} {workers : Workers (SimulationRun (StateM (Files ι)))}
  {picked : UInt64} {files : Files ι}

theorem runIn_of_accepted (parsed : grammar.parse words = .ok args)
    (known : Scheme.ofName (args.positionals.headD "") = .ok scheme) :
    runIn system workers seeded picked words files
      = simulate workers seeded system.save (pure picked) scheme args files :=
  congrFun (run_of_accepted parsed known (pure picked)) files

theorem ended_runIn (seeded : UInt64 → γ)
    (one_worker : workers.count (args.number? "threads") = 1)
    (parsed : grammar.parse words = .ok args)
    (known : Scheme.ofName (args.positionals.headD "") = .ok scheme) :
    Ended system seeded scheme args picked files
      (runIn system workers seeded picked words files) := by
  rw [runIn_of_accepted parsed known]
  exact ended_simulate one_worker

/-- The files stay as they are, or the arguments tell which of them was written to. -/
theorem files_runIn (system : FileSystem ι) (seeded : UInt64 → γ) (picked : UInt64)
    (files : Files ι) (one_worker : ∀ args, grammar.parse words = .ok args →
      workers.count (args.number? "threads") = 1) :
    (runIn system workers seeded picked words files).2 = files ∨
      ∃ args scheme added, grammar.parse words = .ok args ∧
        Scheme.ofName (args.positionals.headD "") = .ok scheme ∧
        system.Written (outputOf scheme args) files added
          (runIn system workers seeded picked words files).2 := by
  -- words that are refused leave the files alone, and all others come to a simulation
  by_cases accepted : ∃ args scheme, grammar.parse words = .ok args ∧
      Scheme.ofName (args.positionals.headD "") = .ok scheme
  · obtain ⟨args, scheme, parsed, known⟩ := accepted
    have ends : Ended system seeded scheme args picked files _ :=
      ended_runIn seeded (one_worker args parsed) parsed known
    obtain ⟨added, written⟩ := ends.exists_written
    exact .inr ⟨args, scheme, added, parsed, known, written⟩
  · refine .inl (state_of_refused_words (fun args scheme parsed known => ?_) _)
    exact accepted ⟨args, scheme, parsed, known⟩

theorem runIn_of_refused (one_worker : workers.count (args.number? "threads") = 1)
    (parsed : grammar.parse words = .ok args)
    (refused : (∃ cause, Scheme.ofName (args.positionals.headD "") = .error cause) ∨
      runsOf args = 0) :
    (runIn system workers seeded picked words files).2 = files ∧
      (runIn system workers seeded picked words files).1.exit = 1 := by
  cases known : Scheme.ofName (args.positionals.headD "") with
  | error cause =>
    rw [runIn, run_of_unknown parsed known]
    exact ⟨rfl, rfl⟩
  | ok scheme =>
    rw [known] at refused
    rcases refused with ⟨cause, unknown⟩ | no_run
    · cases unknown
    · exact (ended_runIn seeded one_worker parsed known).of_no_run no_run

end

/-- What the program, with one worker, does to the files of any file system.  However it ends,
    no file loses what it had, and none but the output file changes.  With an unknown scheme or
    without trials nothing changes at all.  If the program succeeds, what it added to its
    output file ends with the loads that it printed, and it does succeed wherever there are
    trials and the output file takes everything. -/
theorem files_after_run {ι : Type} [DecidableEq ι] (system : FileSystem ι)
    (workers : Workers (SimulationRun (StateM (Files ι)))) (seeded : UInt64 → γ) (picked : UInt64)
    (words : List String) (files : Files ι)
    (one_worker : ∀ args, grammar.parse words = .ok args →
      workers.count (args.number? "threads") = 1) :
    let ended := runIn system workers seeded picked words files
    (∀ file content, files.lookup file = some content →
      ∃ more, ended.2.lookup file = some (content ++ more)) ∧
    (∀ file, ended.2.lookup file ≠ files.lookup file →
      ∃ args scheme, grammar.parse words = .ok args ∧
        Scheme.ofName (args.positionals.headD "") = .ok scheme ∧
        system.target files (outputOf scheme args) = .ok file) ∧
    (∀ args, grammar.parse words = .ok args →
      (∃ cause, Scheme.ofName (args.positionals.headD "") = .error cause) ∨ runsOf args = 0 →
      ended.2 = files ∧ ended.1.exit = 1) ∧
    ∀ args scheme, grammar.parse words = .ok args →
      Scheme.ofName (args.positionals.headD "") = .ok scheme →
      (ended.1.exit = 0 → ∃ file loads added,
        system.target files (outputOf scheme args) = .ok file ∧
        runsOf args ≠ 0 ∧ loads.length = 24 ∧
        ended.1.out = Outcome.unlines (printedLines scheme args loads) ∧
        EndsWithLoads scheme (runsOf args) loads added ∧
        ended.2.lookup file = some (files.contentOf file ++ added.toUTF8)) ∧
      (runsOf args ≠ 0 → system.Accepts (outputOf scheme args) → ended.1.exit = 0) := by
  have written := files_runIn system seeded picked files one_worker
  refine ⟨fun file content found => ?_, fun file changed => ?_,
    fun args parsed refused => runIn_of_refused (one_worker args parsed) parsed refused,
    fun args scheme parsed known =>
      ⟨(ended_runIn seeded (one_worker args parsed) parsed known).of_exit_eq_zero, ?_⟩⟩
  · rcases written with same | ⟨args, scheme, added, parsed, known, written⟩
    · refine ⟨ByteArray.empty, ?_⟩
      rw [same, found, ByteArray.append_empty]
    · exact written.exists_lookup_eq found
  · rcases written with same | ⟨args, scheme, added, parsed, known, written⟩
    · exact absurd (congrArg (Files.lookup · file) same) changed
    · exact ⟨args, scheme, parsed, known, written.target_of_changed changed⟩
  · intro some_run accepts
    rw [runIn_of_accepted parsed known]
    exact exit_simulate_of_accepts (one_worker args parsed) some_run accepts

/-- A tree in which the program runs, with a directory for its output. -/
def usedTree : Tree :=
  ⟨[["work"], ["work", "out"]], ["work"], []⟩

/-- An earlier checkpoint file and another file. -/
def usedFiles : Files (List String) :=
  (Files.put {} ["work", "out", "sim.csv"] "1,256,8192,55\n".toUTF8).put
    ["work", "notes.csv"] "kept".toUTF8

def onlyWorker : Workers (SimulationRun (StateM (Files (List String)))) :=
  .one (runAlone Xoshiro.ofSeed)

theorem target_usedTree (files : Files (List String)) :
    usedTree.target files "out/sim.csv" = .ok ["work", "out", "sim.csv"] := by
  have leads : usedTree.target usedFiles "out/sim.csv" = .ok ["work", "out", "sim.csv"] := by
    decide +kernel
  exact Tree.target_eq_of_ok leads files

/-- One trial, whose checkpoint goes to the directory below. -/
def usedWords : List String :=
  ["paillier", "--runs", "1", "--seed", "7", "--threads", "1", "--output", "out/sim.csv"]

/-- One more trial goes behind the earlier checkpoint, in a directory below the one that the
    program runs in. -/
theorem files_after_run_small :
    (runIn usedTree.system onlyWorker Xoshiro.ofSeed 0 usedWords usedFiles).1.exit = 0 ∧
    (runIn usedTree.system onlyWorker Xoshiro.ofSeed 0 usedWords usedFiles).2.lookup
      ["work", "notes.csv"] = some "kept".toUTF8 ∧
    ∃ more, (runIn usedTree.system onlyWorker Xoshiro.ofSeed 0 usedWords usedFiles).2.lookup
      ["work", "out", "sim.csv"] = some ("1,256,8192,55\n".toUTF8 ++ more) := by
  have parsed : grammar.parse usedWords = .ok ⟨["paillier"], [("runs", .number 1),
    ("seed", .number 7), ("threads", .number 1), ("output", .text "out/sim.csv")]⟩ := rfl
  have one_worker : ∀ args, grammar.parse usedWords = .ok args →
      onlyWorker.count (args.number? "threads") = 1 := by
    intro args parsed'
    obtain rfl := Except.ok.inj (parsed.symm.trans parsed')
    rfl
  have accepts : usedTree.system.Accepts "out/sim.csv" :=
    fun files => ⟨_, target_usedTree files, fun _ => rfl⟩
  have notes : usedFiles.lookup ["work", "notes.csv"] = some "kept".toUTF8 :=
    Files.lookup_put_self _ _ _
  have earlier : usedFiles.lookup ["work", "out", "sim.csv"] = some "1,256,8192,55\n".toUTF8 :=
    (Files.lookup_put_ne _ _ (by decide)).trans (Files.lookup_put_self _ _ _)
  obtain ⟨kept, changes, -, report⟩ :=
    files_after_run usedTree.system onlyWorker Xoshiro.ofSeed 0 usedWords usedFiles one_worker
  have success := (report _ .paillier parsed rfl).2 (by decide) accepts
  refine ⟨success, ?_, kept _ _ earlier⟩
  rw [← notes]
  -- a change would make the other file the output file
  by_contra changed
  obtain ⟨args, scheme, parsed', known, target⟩ := changes ["work", "notes.csv"] changed
  obtain rfl := Except.ok.inj (parsed.symm.trans parsed')
  obtain rfl : Scheme.paillier = scheme := Except.ok.inj known
  have names := Except.ok.inj ((target_usedTree usedFiles).symm.trans target)
  simp at names

end PirTuning.Program.Estimator
