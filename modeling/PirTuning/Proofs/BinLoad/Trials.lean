import Mathlib.Data.Nat.Prime.Basic
import PirTuning.BinLoad.Simulation

/-!
# The states of a simulation

Trial after trial a simulation moves on from one state to the next.  A trial changes
the answers and counts itself; the configuration stays, and so does the number of
answers.
-/

namespace PirTuning.BinLoad

open PirTuning.Checkpoint (Row)

/-! ## Milestones -/

theorem isMilestone_iff {trials : Nat} : isMilestone trials = true ↔ ∃ k, trials = 2 ^ k := by
  rw [isMilestone, beq_iff_eq, Nat.one_shiftLeft]
  constructor
  · exact fun power => ⟨trials.log2, power.symm⟩
  · rintro ⟨k, rfl⟩
    rw [Nat.log2_two_pow]

/-- Three times a power of two is none. -/
theorem not_isMilestone_triple {trials : Nat} (power : isMilestone trials = true) :
    isMilestone (3 * trials) = false := by
  obtain ⟨k, rfl⟩ := isMilestone_iff.mp power
  rw [Bool.eq_false_iff]
  intro triple
  obtain ⟨j, same⟩ := isMilestone_iff.mp triple
  have divides : 3 ∣ 2 ^ j := ⟨2 ^ k, same.symm⟩
  have absurd_divides : 3 ∣ 2 := Nat.Prime.dvd_of_dvd_pow Nat.prime_three divides
  omega

theorem isMilestone_double {trials : Nat} (power : isMilestone trials = true) :
    isMilestone (2 * trials) = true := by
  obtain ⟨k, rfl⟩ := isMilestone_iff.mp power
  exact isMilestone_iff.mpr ⟨k + 1, by rw [Nat.pow_succ, Nat.mul_comm]⟩

/-- The milestones among the next trials, behind those that were completed before. -/
def milestonesFrom (completed trials : Nat) : List Nat :=
  (List.range' (completed + 1) trials).filter isMilestone

theorem mem_milestonesFrom {completed trials c : Nat} :
    c ∈ milestonesFrom completed trials ↔
      completed < c ∧ c ≤ completed + trials ∧ isMilestone c = true := by
  rw [milestonesFrom, List.mem_filter, List.mem_range'_1, ← and_assoc]
  refine and_congr_left' ?_
  omega

theorem pairwise_milestonesFrom (completed trials : Nat) :
    (milestonesFrom completed trials).Pairwise (· < ·) :=
  List.Pairwise.filter _ List.pairwise_lt_range'

theorem milestonesFrom_append (completed trials more : Nat) :
    milestonesFrom completed trials ++ milestonesFrom (completed + trials) more =
      milestonesFrom completed (trials + more) := by
  rw [milestonesFrom, milestonesFrom, ← List.filter_append, Nat.add_right_comm,
    List.range'_append_1]
  rfl

namespace Simulation

variable {config : Config} {sim : Simulation} {γ : Type} [WordSource γ]

/-! ## One state after the other -/

@[simp] theorem config_trial (sim : Simulation) (source : γ) :
    (sim.trial source).config = sim.config := rfl
@[simp] theorem completed_trial (sim : Simulation) (source : γ) :
    (sim.trial source).completed = sim.completed + 1 := rfl

/-- A simulation after so many trials of a run, the first of them with number `r`. -/
def advance (seeds : Seeds γ) (r : Nat) : (trials : Nat) → Simulation → Simulation
  | 0, sim => sim
  | trials + 1, sim => advance seeds (r + 1) trials (sim.trial (seeds.source r))

/-- The states that the trials lead to, one for each. -/
def states (seeds : Seeds γ) (r : Nat) : (trials : Nat) → Simulation → List Simulation
  | 0, _ => []
  | trials + 1, sim =>
    let sim' := sim.trial (seeds.source r)
    sim' :: states seeds (r + 1) trials sim'

theorem config_advance (seeds : Seeds γ) (r trials : Nat) (sim : Simulation) :
    (sim.advance seeds r trials).config = sim.config := by
  induction trials generalizing r sim with
  | zero => rfl
  | succ trials ih => exact ih (r + 1) _

theorem completed_advance (seeds : Seeds γ) (r trials : Nat) (sim : Simulation) :
    (sim.advance seeds r trials).completed = sim.completed + trials := by
  induction trials generalizing r sim with
  | zero => rfl
  | succ trials ih =>
    rw [advance, ih, completed_trial]
    omega

theorem states_succ (seeds : Seeds γ) (r trials : Nat) (sim : Simulation) :
    states seeds r (trials + 1) sim =
      states seeds r trials sim ++ [sim.advance seeds r (trials + 1)] := by
  induction trials generalizing r sim with
  | zero => rfl
  | succ trials ih => exact congrArg (_ :: ·) (ih (r + 1) _)

/-- Each trial counts itself, and nothing else does. -/
theorem map_completed_states (seeds : Seeds γ) (r trials : Nat) (sim : Simulation) :
    (states seeds r trials sim).map completed = List.range' (sim.completed + 1) trials := by
  induction trials generalizing r sim with
  | zero => rfl
  | succ trials ih => exact congrArg (_ :: ·) (ih (r + 1) _)

/-! ## Well-formed states -/

theorem length_trialLoads {σ : Type} [WordSource σ] (bins : Nat) (ballCounts : List Nat)
    (source : σ) : (trialLoads bins ballCounts source).length = ballCounts.length := by
  induction ballCounts generalizing source with
  | nil => rfl
  | cons balls rest ih => exact congrArg (· + 1) (ih _)

/-- A state that belongs to a configuration: there is an answer for each ball count. -/
structure WellFormed (config : Config) (sim : Simulation) : Prop where
  same : sim.config = config
  answered : sim.answers.length = config.ballCounts.length

theorem WellFormed.trial (formed : WellFormed config sim) (source : γ) :
    WellFormed config (sim.trial source) where
  same := formed.same
  answered := by
    simp [Simulation.trial, length_trialLoads, formed.same, formed.answered]

theorem WellFormed.advance (formed : WellFormed config sim) (seeds : Seeds γ) (r trials : Nat) :
    WellFormed config (sim.advance seeds r trials) := by
  induction trials generalizing r sim with
  | zero => exact formed
  | succ trials ih => exact ih (formed.trial _) (r + 1)

/-- A simulation is made of a configuration with trials and ball counts. -/
theorem ofConfig_eq_ok_iff :
    ofConfig config = .ok sim ↔
      config.runs ≠ 0 ∧ config.ballCounts ≠ [] ∧
        sim = ⟨config, config.ballCounts.map fun _ => 0, 0⟩ := by
  unfold ofConfig Config.check
  by_cases no_runs : config.runs = 0
  · simp [no_runs]
  · cases counts : config.ballCounts with
    | nil => simp [no_runs]
    | cons balls rest => simp [no_runs, eq_comm]

theorem wellFormed_of_ofConfig (made : ofConfig config = .ok sim) : WellFormed config sim := by
  obtain ⟨-, -, rfl⟩ := ofConfig_eq_ok_iff.mp made
  exact ⟨rfl, by simp⟩

/-! ## Rows -/

theorem runs_of_mem_rows {label : Nat} {row : Row} (member : row ∈ sim.rows label) :
    row.runs = label := by
  obtain ⟨i, lt, rfl⟩ := List.getElem_of_mem member
  simp [rows]

theorem WellFormed.rows_ne_nil (formed : WellFormed config sim)
    (some_count : config.ballCounts ≠ []) (label : Nat) : sim.rows label ≠ [] := by
  rw [← formed.same] at some_count
  have some_answer : sim.answers ≠ [] := by
    intro none
    have answered := formed.answered
    rw [none, ← formed.same] at answered
    exact some_count (List.eq_nil_of_length_eq_zero answered.symm)
  simp [rows, some_count, some_answer]

end Simulation

end PirTuning.BinLoad
