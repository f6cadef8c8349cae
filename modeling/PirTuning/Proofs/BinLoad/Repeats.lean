import PirTuning.Proofs.BinLoad.Saves

/-!
# Checkpoints of repeated runs

The number of completed trials goes on from one run of a simulation to the next, and
so do the milestones.  The save at the end of a run tells the length of that run, and
whether it is made depends on that length, too.  So the checkpoint file tells the
progress of the simulation only as long as the two numbers agree: `checkpoints_of_runs`
says when that is.
-/

namespace PirTuning.BinLoad

open PirTuning.Checkpoint (Row Failure Place renderRows)

namespace Simulation

variable {γ : Type} [WordSource γ] {config : Config} {sim : Simulation} (seeds : Seeds γ)

/-! ## Several runs -/

/-- Several runs of a simulation, whatever comes out of them. -/
def runTimes {m : Type → Type} [Monad m] (write : List Row → m (Except Failure Unit)) :
    (times : Nat) → Simulation → m (List (Except Failure (List Nat)) × Simulation)
  | 0, sim => pure ([], sim)
  | times + 1, sim => do
    let (results, sim') ← runTimes write times sim
    let (result, sim'') ← run write seeds sim'
    pure (results ++ [result], sim'')

/-- The state that several runs lead to. -/
def afterRuns : (times : Nat) → Simulation → Simulation
  | 0, sim => sim
  | times + 1, sim => (afterRuns times sim).finish seeds

/-- The saves of several runs. -/
def history : (times : Nat) → Simulation → List Save
  | 0, _ => []
  | times + 1, sim => history times sim ++ (sim.afterRuns seeds times).saves seeds

/-- Where nothing is in the way, all runs succeed. -/
theorem runTimes_eq (times : Nat) (sim : Simulation) :
    sim.runTimes seeds saveAtPlace times .free =
      (((List.range times).map fun k => .ok (sim.afterRuns seeds (k + 1)).answers,
        sim.afterRuns seeds times), savedPlace (sim.history seeds times)) := by
  induction times with
  | zero => rfl
  | succ times ih =>
    rw [runTimes]
    simp only [bind, StateT.bind, ih, run_savedPlace, List.range_succ, List.map_append]
    rfl

theorem config_afterRuns (times : Nat) (sim : Simulation) :
    (sim.afterRuns seeds times).config = sim.config := by
  induction times with
  | zero => rfl
  | succ times ih => rw [afterRuns, finish, config_advance, ih]

theorem completed_afterRuns (times : Nat) (sim : Simulation) :
    (sim.afterRuns seeds times).completed = sim.completed + times * sim.config.runs := by
  induction times with
  | zero => simp [afterRuns]
  | succ times ih =>
    rw [afterRuns, finish, completed_advance, config_afterRuns, ih, Nat.succ_mul, Nat.add_assoc]

theorem WellFormed.afterRuns (formed : WellFormed config sim) (times : Nat) :
    WellFormed config (sim.afterRuns seeds times) := by
  induction times with
  | zero => exact formed
  | succ times ih => exact ih.advance seeds 0 _

/-! ## What the saves tell -/

theorem told_milestones (r trials : Nat) (sim : Simulation) :
    (sim.milestones seeds r trials).map Save.told =
      (milestonesFrom sim.completed trials).map fun c => (c, c) := by
  rw [milestonesFrom, ← map_completed_states seeds r, List.filter_map, milestones, List.map_map,
    List.map_map]
  rfl

/-- The milestones tell how many trials are completed; the end of a run tells its length. -/
theorem told_saves (sim : Simulation) :
    (sim.saves seeds).map Save.told =
      ((milestonesFrom sim.completed sim.config.runs).map fun c => (c, c)) ++
      if isMilestone sim.config.runs then []
      else [(sim.config.runs, sim.completed + sim.config.runs)] := by
  rw [saves, List.map_append, told_milestones, lastSave]
  cases isMilestone sim.config.runs with
  | true => rfl
  | false => simp [Save.told, finish, completed_advance]

theorem told_history (fresh : sim.completed = 0) (times : Nat) :
    (sim.history seeds times).map Save.told =
      (List.range times).flatMap fun k =>
        ((milestonesFrom (k * sim.config.runs) sim.config.runs).map fun c => (c, c)) ++
        if isMilestone sim.config.runs then []
        else [(sim.config.runs, (k + 1) * sim.config.runs)] := by
  induction times with
  | zero => rfl
  | succ times ih =>
    rw [history, List.map_append, ih, told_saves, config_afterRuns, completed_afterRuns, fresh,
      List.range_succ, List.flatMap_append, List.flatMap_singleton, Nat.zero_add, Nat.succ_mul]

/-- No save tells of more trials than the runs have thrown, so the counter and the labels are
    words as long as that number is one. -/
theorem told_le (fresh : sim.completed = 0) {times : Nat} {save : Save}
    (member : save ∈ sim.history seeds times) :
    save.label ≤ times * sim.config.runs ∧ save.state.completed ≤ times * sim.config.runs := by
  have told : save.told ∈ (sim.history seeds times).map Save.told := List.mem_map_of_mem member
  rw [told_history seeds fresh, List.mem_flatMap] at told
  obtain ⟨k, earlier, told⟩ := told
  have within : (k + 1) * sim.config.runs ≤ times * sim.config.runs :=
    Nat.mul_le_mul_right _ (List.mem_range.mp earlier)
  rw [Nat.succ_mul] at within
  -- a save is a milestone of some run or the end of it
  rcases List.mem_append.mp told with milestone | last
  · obtain ⟨c, member, same⟩ := List.mem_map.mp milestone
    have le := (mem_milestonesFrom.mp member).2.1
    have label : c = save.label := congrArg Prod.fst same
    have completed : c = save.state.completed := congrArg Prod.snd same
    omega
  · split at last
    · cases last
    · have same := List.mem_singleton.mp last
      have label : save.label = sim.config.runs := congrArg Prod.fst same
      have completed : save.state.completed = (k + 1) * sim.config.runs := congrArg Prod.snd same
      rw [Nat.succ_mul] at completed
      omega

/-- The last trial of a run is saved, if it is a milestone. -/
theorem getLast?_milestones (r : Nat) {trials : Nat} (pos : trials ≠ 0)
    (power : isMilestone (sim.completed + trials) = true) :
    (sim.milestones seeds r trials).getLast? =
      some ⟨sim.advance seeds r trials, (sim.advance seeds r trials).completed⟩ := by
  obtain ⟨before, rfl⟩ := Nat.exists_eq_succ_of_ne_zero pos
  have reached : isMilestone (sim.advance seeds r (before + 1)).completed = true := by
    rw [completed_advance]
    exact power
  rw [milestones, states_succ, List.filter_append, List.filter_singleton, reached]
  simp

end Simulation

/-! ## A file that tells the progress -/

/-- What the rows of a checkpoint file may be taken for: a row tells the number of trials
    that were completed when it was written, the saves tell more and more of them, and the
    last save tells the current answers. -/
structure Faithful (sim : Simulation) (saves : List Save) : Prop where
  labelled : ∀ save ∈ saves, ∀ row ∈ save.rows, row.runs = save.state.completed
  increasing : saves.Pairwise fun earlier later =>
    ∀ row ∈ earlier.rows, ∀ row' ∈ later.rows, row.runs < row'.runs
  current : ∃ save, saves.getLast? = some save ∧ save.rows = sim.rows sim.completed

namespace Simulation

variable {γ : Type} [WordSource γ] {config : Config} {sim : Simulation} (seeds : Seeds γ)

theorem faithful_of_told {saves : List Save} {counts : List Nat}
    (told : saves.map Save.told = counts.map fun c => (c, c))
    (increasing : counts.Pairwise (· < ·))
    (current : ∃ save, saves.getLast? = some save ∧ save.rows = sim.rows sim.completed) :
    Faithful sim saves where
  labelled save member row row_member := by
    have among := List.mem_map_of_mem (f := Save.told) member
    rw [told, List.mem_map] at among
    obtain ⟨c, -, same⟩ := among
    rw [runs_of_mem_rows row_member]
    exact (Prod.ext_iff.mp same).1.symm.trans (Prod.ext_iff.mp same).2
  increasing := by
    have labels : saves.map Save.label = counts := by
      have firsts := congrArg (List.map Prod.fst) told
      rw [List.map_map, List.map_map] at firsts
      exact firsts.trans (List.map_id counts)
    rw [← labels, List.pairwise_map] at increasing
    refine increasing.imp fun less row row_member row' row'_member => ?_
    rwa [runs_of_mem_rows row_member, runs_of_mem_rows row'_member]
  current := current

/-! ### Runs whose length is a milestone -/

theorem told_history_of_milestone (fresh : sim.completed = 0)
    (power : isMilestone sim.config.runs = true) (times : Nat) :
    (sim.history seeds times).map Save.told =
      (milestonesFrom 0 (times * sim.config.runs)).map fun c => (c, c) := by
  induction times with
  | zero => simp [history, milestonesFrom]
  | succ times ih =>
    rw [history, List.map_append, ih, told_saves, config_afterRuns, completed_afterRuns, fresh,
      if_pos power, List.append_nil, ← List.map_append, milestonesFrom_append, Nat.succ_mul]

/-- Runs tell the progress as long as the number of completed trials is a milestone, too. -/
theorem faithful_of_milestone (fresh : sim.completed = 0)
    (power : isMilestone sim.config.runs = true) (pos : sim.config.runs ≠ 0) {times : Nat}
    (reached : isMilestone ((times + 1) * sim.config.runs) = true) :
    Faithful (sim.afterRuns seeds (times + 1)) (sim.history seeds (times + 1)) := by
  refine faithful_of_told (told_history_of_milestone seeds fresh power (times + 1))
    (pairwise_milestonesFrom 0 _) ⟨⟨_, (sim.afterRuns seeds (times + 1)).completed⟩, ?_, rfl⟩
  have last : ((sim.afterRuns seeds times).saves seeds).getLast? =
      some ⟨sim.afterRuns seeds (times + 1), (sim.afterRuns seeds (times + 1)).completed⟩ := by
    rw [saves, lastSave, config_afterRuns, if_pos power, List.append_nil]
    refine (getLast?_milestones seeds 0 pos ?_).trans ?_
    · rwa [completed_afterRuns, fresh, Nat.zero_add, ← Nat.succ_mul]
    · rw [afterRuns, finish, config_afterRuns]
  rw [history, List.getLast?_append, last]
  rfl

/-- After three runs the number of completed trials is no milestone, and no row tells it. -/
theorem not_faithful_thrice (formed : WellFormed sim.config sim)
    (some_count : sim.config.ballCounts ≠ []) (fresh : sim.completed = 0)
    (power : isMilestone sim.config.runs = true) :
    ¬ Faithful (sim.afterRuns seeds 3) (sim.history seeds 3) := by
  intro faithful
  obtain ⟨save, last, rows⟩ := faithful.current
  rw [completed_afterRuns, fresh, Nat.zero_add] at rows
  obtain ⟨row, member⟩ := List.exists_mem_of_ne_nil _
    ((formed.afterRuns seeds 3).rows_ne_nil some_count (3 * sim.config.runs))
  have label : save.label = 3 * sim.config.runs :=
    (runs_of_mem_rows (rows ▸ member : row ∈ save.rows)).symm.trans (runs_of_mem_rows member)
  -- the label of a save is a milestone, and three times a power of two is none
  have told : save.told ∈ (sim.history seeds 3).map Save.told :=
    List.mem_map_of_mem (List.mem_of_getLast? last)
  rw [told_history_of_milestone seeds fresh power, List.mem_map] at told
  obtain ⟨c, milestone, same⟩ := told
  have tells : c = save.label := congrArg Prod.fst same
  have triple : isMilestone (3 * sim.config.runs) = true := by
    rw [← label, ← tells]
    exact (mem_milestonesFrom.mp milestone).2.2
  rw [not_isMilestone_triple power] at triple
  cases triple

/-! ### Runs of any other length -/

theorem lastSave_of_other (other : isMilestone sim.config.runs = false) :
    sim.lastSave seeds = [⟨sim.finish seeds, sim.config.runs⟩] := by
  rw [lastSave, other, if_neg Bool.false_ne_true]

/-- One run tells the progress. -/
theorem faithful_once (fresh : sim.completed = 0) (other : isMilestone sim.config.runs = false) :
    Faithful (sim.afterRuns seeds 1) (sim.history seeds 1) := by
  have completed : (sim.afterRuns seeds 1).completed = sim.config.runs := by
    rw [completed_afterRuns, fresh]
    omega
  have told := told_saves seeds sim
  rw [fresh, other, if_neg Bool.false_ne_true] at told
  refine @faithful_of_told _ _
    (milestonesFrom 0 sim.config.runs ++ [sim.config.runs]) ?_ ?_ ?_
  · simpa [history, afterRuns] using told
  -- the milestones come before the length of the run, which is none of them
  · rw [List.pairwise_append]
    refine ⟨pairwise_milestonesFrom 0 _, List.pairwise_singleton _ _, ?_⟩
    intro c milestone runs member
    obtain ⟨-, le, power⟩ := mem_milestonesFrom.mp milestone
    cases List.mem_singleton.mp member
    have ne : c ≠ sim.config.runs := by
      rintro rfl
      rw [other] at power
      cases power
    omega
  · refine ⟨⟨sim.finish seeds, sim.config.runs⟩, ?_, ?_⟩
    · rw [history, afterRuns, saves, lastSave_of_other seeds other]
      simp
    · rw [completed]
      rfl

/-- The second run tells its length where twice as many trials were completed. -/
theorem not_faithful_twice (formed : WellFormed sim.config sim)
    (some_count : sim.config.ballCounts ≠ []) (fresh : sim.completed = 0)
    (pos : sim.config.runs ≠ 0) (other : isMilestone sim.config.runs = false) :
    ¬ Faithful (sim.afterRuns seeds 2) (sim.history seeds 2) := by
  intro faithful
  have config : (sim.afterRuns seeds 1).config = sim.config := config_afterRuns seeds 1 sim
  have member : (⟨sim.afterRuns seeds 2, sim.config.runs⟩ : Save) ∈ sim.history seeds 2 := by
    rw [history, saves, lastSave_of_other seeds (by rwa [config]), config]
    simp [afterRuns]
  obtain ⟨row, among⟩ := List.exists_mem_of_ne_nil _
    ((formed.afterRuns seeds 2).rows_ne_nil some_count sim.config.runs)
  have twice := faithful.labelled _ member row among
  rw [runs_of_mem_rows among, completed_afterRuns, fresh] at twice
  omega

/-- When the rows of a checkpoint file tell the progress of a simulation, whenever one looks
    at them between its runs. -/
theorem faithful_iff (made : ofConfig config = .ok sim) (times : Nat) :
    (∀ k, 1 ≤ k → k ≤ times → Faithful (sim.afterRuns seeds k) (sim.history seeds k)) ↔
      times ≤ 1 ∨ times = 2 ∧ isMilestone config.runs = true := by
  have formed := wellFormed_of_ofConfig made
  obtain ⟨pos, some_count, rfl⟩ := ofConfig_eq_ok_iff.mp made
  constructor
  · intro faithful
    by_cases once : times ≤ 1
    · exact .inl once
    · cases power : isMilestone config.runs with
      | false =>
        exact absurd (faithful 2 (by omega) (by omega))
          (not_faithful_twice seeds formed some_count rfl pos power)
      | true =>
        refine .inr ⟨?_, rfl⟩
        by_contra more
        exact not_faithful_thrice seeds formed some_count rfl power
          (faithful 3 (by omega) (by omega))
  · intro few k first le
    cases power : isMilestone config.runs with
    | false =>
      have once : k = 1 := by
        simp only [power, Bool.false_eq_true, and_false, or_false] at few
        omega
      subst once
      exact faithful_once seeds rfl power
    | true =>
      have reached : k = 0 + 1 ∨ k = 1 + 1 := by omega
      obtain rfl | rfl := reached
      · exact faithful_of_milestone seeds rfl power pos (by simpa using power)
      · exact faithful_of_milestone seeds rfl power pos (isMilestone_double power)

/-- Runs of a simulation whose checkpoints go to a file of their own: they succeed, the
    milestones among all trials are saved under their own numbers, and so is the end of each
    run, but under the length of the run.  So the rows tell the progress during one run, and
    during two if their length is a milestone, and no longer.  No number in them is larger than
    the number of all trials. -/
theorem checkpoints_of_runs (made : ofConfig config = .ok sim) (times : Nat) :
    sim.runTimes seeds saveAtPlace times .free =
        (((List.range times).map fun k => .ok (sim.afterRuns seeds (k + 1)).answers,
          sim.afterRuns seeds times), savedPlace (sim.history seeds times)) ∧
      (sim.afterRuns seeds times).completed = times * config.runs ∧
      (sim.history seeds times).map Save.told =
        ((List.range times).flatMap fun k =>
          ((milestonesFrom (k * config.runs) config.runs).map fun c => (c, c)) ++
          if isMilestone config.runs then [] else [(config.runs, (k + 1) * config.runs)]) ∧
      ((∀ k, 1 ≤ k → k ≤ times → Faithful (sim.afterRuns seeds k) (sim.history seeds k)) ↔
        times ≤ 1 ∨ times = 2 ∧ isMilestone config.runs = true) ∧
      ∀ save ∈ sim.history seeds times,
        save.label ≤ times * config.runs ∧ save.state.completed ≤ times * config.runs := by
  refine ⟨runTimes_eq seeds times sim, ?_, ?_, faithful_iff seeds made times, ?_⟩
  · obtain ⟨-, -, rfl⟩ := ofConfig_eq_ok_iff.mp made
    exact (completed_afterRuns seeds times _).trans (Nat.zero_add _)
  · obtain ⟨-, -, rfl⟩ := ofConfig_eq_ok_iff.mp made
    exact told_history seeds rfl times
  · obtain ⟨-, -, rfl⟩ := ofConfig_eq_ok_iff.mp made
    exact fun save member => told_le seeds rfl member

/-- Two runs of three trials: a row of three trials behind one of four. -/
theorem checkpoints_of_two_runs :
    ∃ sim, ofConfig ⟨.paillier, [1], 3, some 0, none⟩ = .ok sim ∧
      (sim.history (Xoshiro.seeds 0) 2).map Save.told
        = [(1, 1), (2, 2), (3, 3), (4, 4), (3, 6)] := by
  have made : ofConfig ⟨.paillier, [1], 3, some 0, none⟩ =
      .ok ⟨⟨.paillier, [1], 3, some 0, none⟩, [0], 0⟩ := rfl
  exact ⟨_, made, (checkpoints_of_runs (Xoshiro.seeds 0) made 2).2.2.1.trans (by decide)⟩

/-- The file of these two runs does not tell the progress: its last row is about three
    trials when six were completed. -/
theorem second_run_not_faithful :
    ∃ sim, ofConfig ⟨.paillier, [1], 3, some 0, none⟩ = .ok sim ∧
      (sim.runTimes (Xoshiro.seeds 0) saveAtPlace 2 .free).2
        = savedPlace (sim.history (Xoshiro.seeds 0) 2) ∧
      ((sim.history (Xoshiro.seeds 0) 2).flatMap Save.rows).map Row.runs = [1, 2, 3, 4, 3] ∧
      (sim.history (Xoshiro.seeds 0) 2).map (fun save => save.state.completed) = [1, 2, 3, 4, 6] ∧
      ¬ Faithful (sim.afterRuns (Xoshiro.seeds 0) 2) (sim.history (Xoshiro.seeds 0) 2) := by
  refine ⟨_, rfl, congrArg Prod.snd (runTimes_eq (Xoshiro.seeds 0) 2 _), by decide, by decide, ?_⟩
  exact not_faithful_twice (Xoshiro.seeds 0) (wellFormed_of_ofConfig rfl)
    (List.cons_ne_nil 1 []) rfl (by decide) (by decide)

end Simulation

end PirTuning.BinLoad
