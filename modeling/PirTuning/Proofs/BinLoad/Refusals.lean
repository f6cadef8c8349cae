import Mathlib.Data.Nat.Size
import Mathlib.Order.Bounds.Defs
import PirTuning.Proofs.BinLoad.FirstRun
import PirTuning.Proofs.BinLoad.Repeats

/-!
# Runs whose saves are refused

Where no save can be made, a run comes to its end at the first one that it tries: at the
next milestone, or else behind its last trial.  What was thrown until then is kept, and the
next run goes on counting from there, although it starts over with trial number `0`.
`results_of_refused_runs` follows any number of such runs.
-/

namespace PirTuning.BinLoad

open PirTuning.Checkpoint (Row Failure Place)

/-! ## The next milestone -/

/-- The first milestone behind a number of completed trials. -/
def nextMilestone (completed : Nat) : Nat :=
  2 ^ completed.size

theorem lt_nextMilestone (completed : Nat) : completed < nextMilestone completed :=
  Nat.lt_size_self completed

theorem nextMilestone_le {completed m : Nat} (behind : completed < m)
    (power : isMilestone m = true) : nextMilestone completed ≤ m := by
  obtain ⟨k, rfl⟩ := isMilestone_iff.mp power
  exact Nat.pow_le_pow_right Nat.two_pos (Nat.size_le.mpr behind)

theorem isMilestone_nextMilestone (completed : Nat) :
    isMilestone (nextMilestone completed) = true :=
  isMilestone_iff.mpr ⟨completed.size, rfl⟩

theorem isLeast_nextMilestone (completed : Nat) :
    IsLeast {m | completed < m ∧ ∃ k, m = 2 ^ k} (nextMilestone completed) := by
  refine ⟨⟨lt_nextMilestone completed, completed.size, rfl⟩, ?_⟩
  rintro m ⟨behind, power⟩
  exact nextMilestone_le behind (isMilestone_iff.mpr power)

/-! ## The first save of a run -/

namespace Simulation

variable {γ : Type} [WordSource γ] {sim : Simulation} (seeds : Seeds γ)

theorem head?_milestones_of_reached (r : Nat) {trials : Nat}
    (reached : nextMilestone sim.completed - sim.completed ≤ trials) :
    (sim.milestones seeds r trials).head? =
      some ⟨sim.advance seeds r (nextMilestone sim.completed - sim.completed),
        nextMilestone sim.completed⟩ := by
  have behind := lt_nextMilestone sim.completed
  -- no number between is a power of two, so the first save is the one at the next milestone
  have found : (List.range' 1 trials).find? (fun m => isMilestone (sim.completed + m)) =
      some (nextMilestone sim.completed - sim.completed) := by
    rw [List.find?_range'_eq_some]
    refine ⟨?_, ?_, ?_⟩
    · rw [Nat.add_sub_cancel' (Nat.le_of_lt behind)]
      exact isMilestone_nextMilestone sim.completed
    · rw [List.mem_range'_1]
      omega
    · intro m pos before
      rw [Bool.not_eq_true', Bool.eq_false_iff]
      intro power
      have le := nextMilestone_le (show sim.completed < sim.completed + m by omega) power
      omega
  have label : sim.completed + (nextMilestone sim.completed - sim.completed) =
      nextMilestone sim.completed := Nat.add_sub_cancel' (Nat.le_of_lt behind)
  rw [milestones, List.head?_map, List.head?_filter, states_eq_map, List.find?_map]
  simp only [Function.comp_def, completed_advance, found, Option.map_some, label]

theorem milestones_of_unreached (r : Nat) {trials : Nat}
    (before : trials < nextMilestone sim.completed - sim.completed) :
    sim.milestones seeds r trials = [] := by
  rw [milestones, List.map_eq_nil_iff, List.filter_eq_nil_iff]
  intro state member power
  have counted : state.completed ∈ List.range' (sim.completed + 1) trials := by
    rw [← map_completed_states seeds r]
    exact List.mem_map_of_mem member
  rw [List.mem_range'_1] at counted
  have le := nextMilestone_le counted.1 power
  omega

/-- The first save of a run: at the next milestone, or else at its end. -/
theorem head?_saves (sim : Simulation) :
    (sim.saves seeds).head? =
      if nextMilestone sim.completed - sim.completed ≤ sim.config.runs then
        some ⟨sim.advance seeds 0 (nextMilestone sim.completed - sim.completed),
          nextMilestone sim.completed⟩
      else if isMilestone sim.config.runs then none
      else some ⟨sim.finish seeds, sim.config.runs⟩ := by
  rw [saves, List.head?_append]
  by_cases reached : nextMilestone sim.completed - sim.completed ≤ sim.config.runs
  · rw [head?_milestones_of_reached seeds 0 reached, if_pos reached]
    rfl
  · rw [milestones_of_unreached seeds 0 (Nat.lt_of_not_le reached), if_neg reached, lastSave]
    cases isMilestone sim.config.runs <;> rfl

end Simulation

/-! ## Writers that refuse -/

/-- No save can be made: where one is refused the next one will be, too, whatever the
    refusal leaves behind. -/
structure Refuses {σ : Type} (write : List Row → StateM σ (Except Failure Unit))
    (stuck : σ → Prop) : Prop where
  refused : ∀ {s}, stuck s → ∀ rows, ∃ cause, (write rows s).1 = .error cause
  stays : ∀ {s}, stuck s → ∀ rows, stuck (write rows s).2

theorem refuses_saveAtPlace : Refuses saveAtPlace fun place => ∃ cause, place = .blocked cause where
  refused := by
    rintro _ ⟨cause, rfl⟩ _
    exact ⟨cause, rfl⟩
  stays := by
    rintro _ ⟨cause, rfl⟩ _
    exact ⟨cause, rfl⟩

variable {γ : Type} [WordSource γ] {σ : Type}
  {write : List Row → StateM σ (Except Failure Unit)} {stuck : σ → Prop}
  {s : σ} {config : Config} {sim : Simulation} (seeds : Seeds γ)

/-- A run that has a save to make ends with it. -/
theorem Refuses.run_of_head? (refuses : Refuses write stuck) (start : stuck s) {save : Save}
    (first : (sim.saves seeds).head? = some save) :
    ∃ cause, (write save.rows s).1 = .error cause ∧
      sim.run write seeds s = ((.error cause, save.state), (write save.rows s).2) := by
  obtain ⟨cause, refused⟩ := refuses.refused start save.rows
  obtain ⟨later, saves⟩ := List.head?_eq_some_iff.mp first
  refine ⟨cause, refused, ?_⟩
  rw [Simulation.run_eq, saves, writeAll]
  simp only [bind, StateT.bind]
  cases result : write save.rows s with
  | mk outcome s' =>
    rw [result] at refused
    subst refused
    rfl

/-- A run without a save cannot fail. -/
theorem run_of_no_save (none_due : (sim.saves seeds).head? = none) :
    sim.run write seeds s = ((.ok (sim.finish seeds).answers, sim.finish seeds), s) := by
  rw [Simulation.run_eq, List.head?_eq_none_iff.mp none_due]
  rfl

/-! ## One call -/

/-- What a call comes to that can save nothing.  Up to the next milestone `m` of the number
    of completed trials it throws the trials of a run, and fails there; if the run is over
    before, it fails at its end, unless no save is due there. -/
structure RefusedCall (write : List Row → StateM σ (Except Failure Unit)) (config : Config)
    (seeds : Seeds γ) (s : σ) (before : Simulation) (result : Except Failure (List Nat))
    (after : Simulation) (m : Nat) : Prop where
  next : IsLeast {m | before.completed < m ∧ ∃ k, m = 2 ^ k} m
  stops : m - before.completed ≤ config.runs →
    after = before.advance seeds 0 (m - before.completed) ∧ after.completed = m ∧
      ∃ cause, (write (after.rows m) s).1 = .error cause ∧ result = .error cause
  finishes : config.runs < m - before.completed →
    after = before.advance seeds 0 config.runs ∧
      after.completed = before.completed + config.runs ∧
      ((∃ cause, result = .error cause) ↔ ¬ ∃ k, config.runs = 2 ^ k)

theorem Refuses.run (refuses : Refuses write stuck) (start : stuck s)
    (same : sim.config = config) :
    RefusedCall write config seeds s sim (sim.run write seeds s).1.1 (sim.run write seeds s).1.2
        (nextMilestone sim.completed) ∧
      stuck (sim.run write seeds s).2 := by
  subst same
  have head := Simulation.head?_saves seeds sim
  have behind := lt_nextMilestone sim.completed
  by_cases reached : nextMilestone sim.completed - sim.completed ≤ sim.config.runs
  · rw [if_pos reached] at head
    obtain ⟨cause, refused, run⟩ := refuses.run_of_head? seeds start head
    rw [run]
    refine ⟨⟨isLeast_nextMilestone _, fun _ => ⟨rfl, ?_, cause, refused, rfl⟩,
      fun before => absurd reached (Nat.not_le_of_lt before)⟩, refuses.stays start _⟩
    exact (Simulation.completed_advance _ _ _ _).trans (Nat.add_sub_cancel' (Nat.le_of_lt behind))
  · -- all trials are thrown, and only the save at the end can fail
    rw [if_neg reached] at head
    have completed := Simulation.completed_advance seeds 0 sim.config.runs sim
    cases power : isMilestone sim.config.runs with
    | true =>
      rw [power, if_pos rfl] at head
      rw [run_of_no_save seeds head]
      refine ⟨⟨isLeast_nextMilestone _, fun le => absurd le reached,
        fun _ => ⟨rfl, completed, ?_⟩⟩, start⟩
      simp [isMilestone_iff.mp power]
    | false =>
      rw [power, if_neg Bool.false_ne_true] at head
      obtain ⟨cause, -, run⟩ := refuses.run_of_head? seeds start head
      rw [run]
      refine ⟨⟨isLeast_nextMilestone _, fun le => absurd le reached,
        fun _ => ⟨rfl, completed, ?_⟩⟩, refuses.stays start _⟩
      have other : ¬ ∃ k, sim.config.runs = 2 ^ k := by
        rw [← isMilestone_iff, power]
        exact Bool.false_ne_true
      exact iff_of_true ⟨cause, rfl⟩ other

/-- Whichever way a call ends, it has thrown the first trials of a run. -/
theorem RefusedCall.after_eq {before after : Simulation} {result : Except Failure (List Nat)}
    {m : Nat} (call : RefusedCall write config seeds s before result after m) :
    after = before.advance seeds 0 (after.completed - before.completed) := by
  by_cases reached : m - before.completed ≤ config.runs
  · obtain ⟨after_eq, completed, -⟩ := call.stops reached
    rwa [completed]
  · obtain ⟨after_eq, completed, -⟩ := call.finishes (Nat.lt_of_not_le reached)
    rwa [completed, Nat.add_sub_cancel_left]

/-- A call throws no more trials than a run has. -/
theorem RefusedCall.completed_le {before after : Simulation}
    {result : Except Failure (List Nat)} {m : Nat}
    (call : RefusedCall write config seeds s before result after m) :
    after.completed ≤ before.completed + config.runs := by
  -- the call stops at a milestone within the run, or at its end
  by_cases reached : m - before.completed ≤ config.runs
  · obtain ⟨-, completed, -⟩ := call.stops reached
    have behind : before.completed < m := call.next.1.1
    omega
  · obtain ⟨-, completed, -⟩ := call.finishes (Nat.lt_of_not_le reached)
    exact Nat.le_of_eq completed

/-! ## Any number of calls -/

/-- The trials that were thrown in some calls.  Each call starts over with number `0` and
    counts the trials that it has thrown. -/
def thrownTrials (write : List Row → StateM σ (Except Failure Unit)) (seeds : Seeds γ)
    (sim : Simulation) (s : σ) (calls : Nat) : Finset Nat :=
  (Finset.range calls).biUnion fun k =>
    Finset.range ((sim.runTimes seeds write (k + 1) s).1.2.completed
      - (sim.runTimes seeds write k s).1.2.completed)

/-- Where a simulation is after calls that could save nothing: the answers tell all trials
    that were thrown. -/
structure Unsaved (stuck : σ → Prop) (config : Config) (seeds : Seeds γ) (trials : Finset Nat)
    (sim : Simulation) (s : σ) : Prop where
  same : sim.config = config
  answers : sim.answers = largestLoads config seeds trials
  still : stuck s

theorem Unsaved.run {trials : Finset Nat} (refuses : Refuses write stuck)
    (unsaved : Unsaved stuck config seeds trials sim s) :
    Unsaved stuck config seeds
      (trials ∪ Finset.range ((sim.run write seeds s).1.2.completed - sim.completed))
      (sim.run write seeds s).1.2 (sim.run write seeds s).2 := by
  obtain ⟨call, still⟩ := refuses.run seeds unsaved.still unsaved.same
  have after_eq := call.after_eq
  refine ⟨?_, ?_, still⟩
  · rw [after_eq, Simulation.config_advance, unsaved.same]
  · have answers := Simulation.answers_advance seeds unsaved.same unsaved.answers 0
      ((sim.run write seeds s).1.2.completed - sim.completed)
    rwa [← after_eq, Nat.zero_add, ← Finset.range_eq_Ico] at answers

theorem unsaved_runTimes (refuses : Refuses write stuck) (start : stuck s)
    (made : Simulation.ofConfig config = .ok sim) (calls : Nat) :
    Unsaved stuck config seeds (thrownTrials write seeds sim s calls)
      (sim.runTimes seeds write calls s).1.2 (sim.runTimes seeds write calls s).2 := by
  induction calls with
  | zero =>
    obtain ⟨-, -, rfl⟩ := Simulation.ofConfig_eq_ok_iff.mp made
    exact ⟨rfl, (largestLoads_empty config seeds).symm, start⟩
  | succ calls ih =>
    have next := ih.run seeds refuses
    rw [thrownTrials, Finset.range_add_one, Finset.biUnion_insert, Finset.union_comm]
    exact next

theorem completed_runTimes_le (refuses : Refuses write stuck) (start : stuck s)
    (made : Simulation.ofConfig config = .ok sim) (calls : Nat) :
    (sim.runTimes seeds write calls s).1.2.completed ≤ calls * config.runs := by
  induction calls with
  | zero =>
    obtain ⟨-, -, rfl⟩ := Simulation.ofConfig_eq_ok_iff.mp made
    exact Nat.zero_le _
  | succ calls ih =>
    have before := unsaved_runTimes seeds refuses start made calls
    have call := (refuses.run seeds before.still before.same).1.completed_le
    rw [Nat.succ_mul]
    exact call.trans (Nat.add_le_add_right ih _)

/-- A save that fails loses no results, whatever the writer is and however often it was
    called before.  Each call throws trials as far as the next milestone or to the end of the
    run, and keeps them: the answers are the largest loads of all trials that were thrown in
    any call, so they never fall.  The counter is a word as long as the calls have no more
    trials to throw than that. -/
theorem results_of_refused_runs (config : Config) (seeds : Seeds γ) (some_run : config.runs ≠ 0)
    (some_count : config.ballCounts ≠ []) (refuses : Refuses write stuck) (start : stuck s) :
    ∃ sim, Simulation.ofConfig config = .ok sim ∧ ∀ calls,
      let before := sim.runTimes seeds write calls s
      let call := before.1.2.run write seeds before.2
      sim.runTimes seeds write (calls + 1) s = ((before.1.1 ++ [call.1.1], call.1.2), call.2) ∧
      (∃ m, RefusedCall write config seeds before.2 before.1.2 call.1.1 call.1.2 m) ∧
      call.1.2.answers = largestLoads config seeds (thrownTrials write seeds sim s (calls + 1)) ∧
      (∀ j, before.1.2.answers.getD j 0 ≤ call.1.2.answers.getD j 0) ∧
      call.1.2.completed ≤ (calls + 1) * config.runs := by
  have made := Simulation.ofConfig_eq_ok_iff.mpr ⟨some_run, some_count, rfl⟩
  refine ⟨_, made, fun calls => ?_⟩
  have before := unsaved_runTimes seeds refuses start made calls
  have after := unsaved_runTimes seeds refuses start made (calls + 1)
  have next := before.run seeds refuses
  refine ⟨rfl, ⟨_, (refuses.run seeds before.still before.same).1⟩, after.answers, fun j => ?_,
    completed_runTimes_le seeds refuses start made (calls + 1)⟩
  rw [before.answers, next.answers]
  exact largestLoads_mono seeds Finset.subset_union_left j

/-- Three trials for two ball counts. -/
def threeTrials : Config := ⟨.paillier, [2, 20], 3, some 5, none⟩

/-- Runs of three trials into a directory.  Before the fourth one four trials are completed;
    the next milestone is too far away, so it throws all three and fails at its end. -/
theorem results_of_refused_runs_small :
    ∃ sim, Simulation.ofConfig threeTrials = .ok sim ∧
      (sim.runTimes (Xoshiro.seeds 5) saveAtPlace 3 (.blocked .isDirectory)).1.2.completed = 4 ∧
      (sim.runTimes (Xoshiro.seeds 5) saveAtPlace 4 (.blocked .isDirectory)).1.2.completed = 7 ∧
      ∃ cause, (sim.runTimes (Xoshiro.seeds 5) saveAtPlace 4 (.blocked .isDirectory)).1.1.getLast?
        = some (.error cause) := by
  obtain ⟨sim, made, calls⟩ := results_of_refused_runs threeTrials (Xoshiro.seeds 5)
    (show threeTrials.runs ≠ 0 by decide) (List.cons_ne_nil 2 [20]) refuses_saveAtPlace
    ⟨.isDirectory, rfl⟩
  obtain ⟨step, ⟨m, fourth⟩, -⟩ := calls 3
  have completed :
      (sim.runTimes (Xoshiro.seeds 5) saveAtPlace 3 (.blocked .isDirectory)).1.2.completed = 4 := by
    obtain ⟨-, -, rfl⟩ := Simulation.ofConfig_eq_ok_iff.mp made
    decide +kernel
  have milestone : m = 8 := fourth.next.unique (completed ▸ isLeast_nextMilestone 4)
  obtain ⟨-, after, fails⟩ := fourth.finishes (by rw [completed, milestone]; decide)
  obtain ⟨cause, failed⟩ := fails.mpr fun ⟨k, power⟩ =>
    absurd (isMilestone_iff.mpr ⟨k, power⟩) (by decide)
  refine ⟨sim, made, completed, ?_, cause, ?_⟩
  · rw [step, after, completed]
    rfl
  · rw [step, failed, List.getLast?_concat]

end PirTuning.BinLoad
