import Mathlib.Data.List.Sort
import PirTuning.Proofs.BinLoad.Answers

/-!
# The checkpoint file of a first run

A first run saves at the powers of two up to its length, and once more at its end if its
length is none.  The save at `m` tells the largest loads of the first `m` trials.  So the
text that a run adds to its file is known from the loads of its trials.
-/

namespace PirTuning.BinLoad

open PirTuning.Checkpoint (Row Failure Place renderRows renderRows_append)

/-! ## Labels -/

/-- The numbers of trials at which a first run saves. -/
def saveLabels (runs : Nat) : List Nat :=
  (List.range (runs.log2 + 1)).map (2 ^ ·) ++ if 2 ^ runs.log2 = runs then [] else [runs]

section

variable {runs : Nat} (some_run : runs ≠ 0)

include some_run

theorem milestonesFrom_zero :
    milestonesFrom 0 runs = (List.range (runs.log2 + 1)).map (2 ^ ·) := by
  -- both lists ascend, so it is enough that they have the same members
  apply List.Pairwise.eq_of_mem_iff (pairwise_milestonesFrom 0 runs)
  · rw [List.pairwise_map]
    exact List.pairwise_lt_range.imp fun less => Nat.pow_lt_pow_right (Nat.lt_succ_self 1) less
  · intro c
    simp only [mem_milestonesFrom, isMilestone_iff, List.mem_map, List.mem_range, Nat.lt_succ_iff,
      Nat.le_log2 some_run, Nat.zero_add]
    constructor
    · rintro ⟨-, le, k, rfl⟩
      exact ⟨k, le, rfl⟩
    · rintro ⟨k, le, rfl⟩
      exact ⟨Nat.two_pow_pos k, le, k, rfl⟩

theorem saveLabels_eq :
    saveLabels runs = milestonesFrom 0 runs ++ if isMilestone runs then [] else [runs] := by
  simp only [saveLabels, milestonesFrom_zero some_run, isMilestone, Nat.one_shiftLeft, beq_iff_eq]

theorem saveLabels_concat : saveLabels runs = milestonesFrom 0 (runs - 1) ++ [runs] := by
  obtain ⟨before, rfl⟩ := Nat.exists_eq_succ_of_ne_zero some_run
  have last : milestonesFrom (0 + before) 1
      = if isMilestone (before + 1) then [before + 1] else [] := by
    rw [milestonesFrom, Nat.zero_add, List.range'_one, List.filter_singleton, cond_eq_ite]
  -- the length is saved as a milestone or at the end, but never twice
  rw [saveLabels_eq some_run, Nat.succ_sub_one, ← milestonesFrom_append 0 before 1, last]
  cases isMilestone (before + 1) <;> simp

theorem mem_saveLabels {m : Nat} :
    m ∈ saveLabels runs ↔ 0 < m ∧ m ≤ runs ∧ ((∃ k, m = 2 ^ k) ∨ m = runs) := by
  rw [saveLabels_concat some_run, List.mem_append, mem_milestonesFrom, isMilestone_iff,
    List.mem_singleton]
  grind

theorem pairwise_saveLabels : (saveLabels runs).Pairwise (· < ·) := by
  rw [saveLabels_concat some_run, List.pairwise_append]
  refine ⟨pairwise_milestonesFrom 0 _, List.pairwise_singleton _ _, ?_⟩
  intro milestone member last only
  have le := (mem_milestonesFrom.mp member).2.1
  rw [List.mem_singleton] at only
  omega

theorem getLast?_saveLabels : (saveLabels runs).getLast? = some runs := by
  rw [saveLabels_concat some_run, List.getLast?_concat]

end

/-! ## What a first run saves -/

/-- The lines of a save: one for each ball count. -/
def saveLines (config : Config) (label : Nat) (loads : List Nat) : List String :=
  List.zipWith (fun balls load => s!"{label},{config.scheme.bins},{balls},{load}\n")
    config.ballCounts loads

variable {γ : Type} [WordSource γ] {config : Config} {sim : Simulation} (seeds : Seeds γ)

/-- The text that a first run adds to its file. -/
def savedText (config : Config) (seeds : Seeds γ) : String :=
  String.join ((saveLabels config.runs).flatMap fun m =>
    saveLines config m (largestLoads config seeds (Finset.range m)))

theorem largestLoads_mono {trials trials' : Finset Nat} (subset : trials ⊆ trials') (j : Nat) :
    (largestLoads config seeds trials).getD j 0 ≤ (largestLoads config seeds trials').getD j 0 := by
  by_cases lt : j < config.ballCounts.length
  · rw [getD_largestLoads seeds _ lt, getD_largestLoads seeds _ lt]
    exact Finset.sup_mono subset
  · have none : (largestLoads config seeds trials)[j]? = none := by
      rw [List.getElem?_eq_none_iff, length_largestLoads]
      exact Nat.not_lt.mp lt
    rw [List.getD_eq_getElem?_getD, none]
    exact Nat.zero_le _

namespace Simulation

/-- Where a first run is after some of its trials. -/
theorem advance_of_made (made : ofConfig config = .ok sim) (trials : Nat) :
    sim.advance seeds 0 trials
      = ⟨config, largestLoads config seeds (Finset.range trials), trials⟩ := by
  have answers := answers_of_made seeds made trials
  have config_eq := config_advance seeds 0 trials sim
  have completed := completed_advance seeds 0 trials sim
  obtain ⟨-, -, rfl⟩ := ofConfig_eq_ok_iff.mp made
  rw [Nat.zero_add] at completed
  calc _ = (⟨_, _, _⟩ : Simulation) := rfl
    _ = _ := by rw [answers, config_eq, completed]

theorem states_eq_map (r trials : Nat) (sim : Simulation) :
    states seeds r trials sim = (List.range' 1 trials).map (sim.advance seeds r) := by
  induction trials with
  | zero => rfl
  | succ trials ih =>
    rw [states_succ, ih, List.range'_1_concat, List.map_append, Nat.add_comm 1]
    rfl

theorem saves_of_made (made : ofConfig config = .ok sim) :
    sim.saves seeds = (saveLabels config.runs).map fun m =>
      ⟨⟨config, largestLoads config seeds (Finset.range m), m⟩, m⟩ := by
  have finish := advance_of_made seeds made config.runs
  have states : states seeds 0 config.runs sim = _ := states_eq_map seeds 0 config.runs sim
  simp only [funext (advance_of_made seeds made)] at states
  obtain ⟨some_run, -, rfl⟩ := ofConfig_eq_ok_iff.mp made
  rw [saves, milestones, lastSave, Simulation.finish, finish, states, List.filter_map, List.map_map,
    saveLabels_eq some_run, List.map_append, milestonesFrom]
  cases isMilestone config.runs <;> rfl

theorem saves_ne_nil (made : ofConfig config = .ok sim) : sim.saves seeds ≠ [] := by
  have some_run := (ofConfig_eq_ok_iff.mp made).1
  rw [saves_of_made seeds made, saveLabels_concat some_run]
  simp

theorem finish_of_made (made : ofConfig config = .ok sim) :
    sim.finish seeds
      = ⟨config, largestLoads config seeds (Finset.range config.runs), config.runs⟩ := by
  have same := (wellFormed_of_ofConfig made).same
  rw [finish, same, advance_of_made seeds made]

theorem renderRows_saves (made : ofConfig config = .ok sim) :
    renderRows ((sim.saves seeds).flatMap Save.rows) = savedText config seeds := by
  rw [renderRows, savedText, saves_of_made seeds made, List.flatMap_map, List.map_flatMap]
  congr 2
  funext m
  rw [Save.rows, rows, List.map_zipWith]
  rfl

end Simulation

/-- What a first run answers and adds to its file. -/
theorem Appends.run_of_made {σ : Type} {write : List Row → StateM σ (Except Failure Unit)}
    {start : σ} {old : ByteArray} {holding : ByteArray → σ}
    (appends : Appends write start old holding) (made : Simulation.ofConfig config = .ok sim) :
    sim.run write seeds start
      = ((.ok (largestLoads config seeds (Finset.range config.runs)),
          ⟨config, largestLoads config seeds (Finset.range config.runs), config.runs⟩),
        holding (old ++ (savedText config seeds).toUTF8)) := by
  rw [appends.run seeds (Simulation.saves_ne_nil seeds made), Simulation.finish_of_made seeds made,
    Simulation.renderRows_saves seeds made]

/-- The checkpoint file of a first run.  Behind what was there before it has a block of lines
    for each of its labels, with the largest loads of as many trials.  The labels are the
    powers of two up to the length of the run and the length itself, each of them once and in
    order; loads never fall from one label to a later one, and the last block is what the run
    answers. -/
theorem checkpoints_of_first_run (config : Config) (seeds : Seeds γ) (some_run : config.runs ≠ 0)
    (some_count : config.ballCounts ≠ []) {place : Place} {old : ByteArray}
    (content : place.content? = some old) :
    (∃ sim, Simulation.ofConfig config = .ok sim ∧
      sim.run saveAtPlace seeds place
        = ((.ok (largestLoads config seeds (Finset.range config.runs)),
            ⟨config, largestLoads config seeds (Finset.range config.runs), config.runs⟩),
          .file (old ++ (savedText config seeds).toUTF8))) ∧
    (∀ m, m ∈ saveLabels config.runs ↔
      0 < m ∧ m ≤ config.runs ∧ ((∃ k, m = 2 ^ k) ∨ m = config.runs)) ∧
    (saveLabels config.runs).Pairwise (· < ·) ∧
    (saveLabels config.runs).getLast? = some config.runs ∧
    ∀ m m', m ≤ m' → ∀ j, (largestLoads config seeds (Finset.range m)).getD j 0
      ≤ (largestLoads config seeds (Finset.range m')).getD j 0 := by
  refine ⟨?_, fun m => mem_saveLabels some_run, pairwise_saveLabels some_run,
    getLast?_saveLabels some_run, ?_⟩
  · have made : Simulation.ofConfig config
        = .ok ⟨config, config.ballCounts.map fun _ => 0, 0⟩ :=
      Simulation.ofConfig_eq_ok_iff.mpr ⟨some_run, some_count, rfl⟩
    refine ⟨_, made, ?_⟩
    exact (appends_saveAtPlace content).run_of_made seeds made
  · intro m m' le
    exact largestLoads_mono seeds (Finset.range_mono le)

/-- Three trials: the last block is behind those of one and of two. -/
theorem checkpoints_of_three_trials :
    let config : Config := ⟨.paillier, [2, 20], 3, some 5, none⟩
    ∃ sim, Simulation.ofConfig config = .ok sim ∧
      (sim.run saveAtPlace (Xoshiro.seeds 5) (.file "old\n".toUTF8)).2 = .file ("old\n".toUTF8 ++
        "1,256,2,1\n1,256,20,1\n2,256,2,1\n2,256,20,2\n3,256,2,1\n3,256,20,2\n".toUTF8) := by
  intro config
  have text : savedText config (Xoshiro.seeds 5) =
    "1,256,2,1\n1,256,20,1\n2,256,2,1\n2,256,20,2\n3,256,2,1\n3,256,20,2\n" := by decide +kernel
  obtain ⟨⟨sim, made, run⟩, -⟩ := checkpoints_of_first_run config (Xoshiro.seeds 5) (by decide)
    (List.cons_ne_nil 2 [20]) (show Place.content? (.file "old\n".toUTF8) = some _ from rfl)
  refine ⟨sim, made, ?_⟩
  rw [run, text]

end PirTuning.BinLoad
