import Mathlib.Order.Interval.Finset.Nat
import PirTuning.Proofs.BinLoad.Loads
import PirTuning.Proofs.BinLoad.Saves

/-!
# The answers of a simulation

Trial `r` reads the words of its own generator, ball count after ball count, one word for
each ball.  So the load of a ball count in a trial can be told without running the trial,
and the answers after some trials are the largest of these loads.
-/

namespace PirTuning.BinLoad

/-! ## One trial -/

/-- Number of bits that tell the bins of a scheme apart. -/
def Scheme.binBits : Scheme → Nat
  | .rlwe => 12
  | .paillier => 8

theorem Scheme.bins_eq (scheme : Scheme) : scheme.bins = 2 ^ scheme.binBits := by
  cases scheme <;> rfl

theorem Scheme.binBits_lt (scheme : Scheme) : scheme.binBits < 64 := by
  cases scheme <;> decide

section

variable {σ : Type} [WordSource σ] {k : Nat}

/-- The load of ball count number `j`: its words stand behind those of the ball counts
    before it. -/
def countedLoad (k : Nat) (ballCounts : List Nat) (source : σ) (j : Nat) : Nat :=
  peak ((List.range' (ballCounts.take j).sum (ballCounts.getD j 0)).map fun i =>
    binOf k (wordAt source i))

theorem countedLoad_cons (balls : Nat) (rest : List Nat) (source : σ) (j : Nat) :
    countedLoad k (balls :: rest) source (j + 1) = countedLoad k rest (skip balls source) j := by
  simp only [countedLoad, List.take_succ_cons, List.sum_cons, List.getD_cons_succ,
    List.range'_eq_map_range, List.map_map, Function.comp_def, wordAt_skip, Nat.add_assoc]

theorem maxLoad_eq_countedLoad (lt : k < 64) (ballCounts : List Nat) (source : σ) (j : Nat) :
    (throwBalls (2 ^ k) (ballCounts.getD j 0) (skip (ballCounts.take j).sum source)).maxLoad
      = countedLoad k ballCounts source j := by
  simp only [maxLoad_throwBalls_two_pow lt, countedLoad, List.range'_eq_map_range, List.map_map,
    Function.comp_def, wordAt_skip]

/-- One generator goes through all ball counts. -/
theorem trialLoads_eq (lt : k < 64) (ballCounts : List Nat) (source : σ) :
    trialLoads (2 ^ k) ballCounts source
      = (List.range ballCounts.length).map (countedLoad k ballCounts source) := by
  induction ballCounts generalizing source with
  | nil => rfl
  | cons balls rest ih =>
    have first := maxLoad_eq_countedLoad lt (balls :: rest) source 0
    simp only [List.getD_cons_zero, List.take_zero, List.sum_nil, skip] at first
    rw [trialLoads, source_throwBalls_two_pow lt, ih, first, List.length_cons,
      List.range_succ_eq_map, List.map_cons, List.map_map]
    simp only [Function.comp_def, Nat.succ_eq_add_one, countedLoad_cons]

end

/-! ## Several trials -/

variable {γ : Type} [WordSource γ] {config : Config} {sim : Simulation} (seeds : Seeds γ)

/-- The load of ball count number `j` in trial number `r`. -/
def trialLoad (config : Config) (seeds : Seeds γ) (r j : Nat) : Nat :=
  countedLoad config.scheme.binBits config.ballCounts (seeds.source r) j

theorem trialLoads_source (config : Config) (r : Nat) :
    trialLoads config.scheme.bins config.ballCounts (seeds.source r)
      = (List.range config.ballCounts.length).map (trialLoad config seeds r) := by
  rw [Scheme.bins_eq, trialLoads_eq (Scheme.binBits_lt _)]
  rfl

/-- The largest loads of some trials, ball count by ball count. -/
def largestLoads (config : Config) (seeds : Seeds γ) (trials : Finset Nat) : List Nat :=
  (List.range config.ballCounts.length).map fun j =>
    trials.sup fun r => trialLoad config seeds r j

@[simp] theorem length_largestLoads (trials : Finset Nat) :
    (largestLoads config seeds trials).length = config.ballCounts.length := by
  simp [largestLoads]

theorem getD_largestLoads (trials : Finset Nat) {j : Nat} (lt : j < config.ballCounts.length) :
    (largestLoads config seeds trials).getD j 0
      = trials.sup fun r => trialLoad config seeds r j := by
  simp [largestLoads, lt]

theorem largestLoads_empty (config : Config) (seeds : Seeds γ) :
    largestLoads config seeds ∅ = config.ballCounts.map fun _ => 0 := by
  simp [largestLoads, List.map_const']

namespace Simulation

theorem answers_trial {trials : Finset Nat} (same : sim.config = config)
    (answers : sim.answers = largestLoads config seeds trials) (r : Nat) :
    (sim.trial (seeds.source r)).answers
      = largestLoads config seeds (insert r trials) := by
  subst same
  -- the trial adds its own loads to those that the answers are the largest of
  rw [trial, trialLoads_source, answers, largestLoads, largestLoads, List.zipWith_map,
    List.zipWith_self]
  simp only [Finset.sup_insert, max_comm]

theorem answers_advance {trials : Finset Nat} (same : sim.config = config)
    (answers : sim.answers = largestLoads config seeds trials) (r more : Nat) :
    (sim.advance seeds r more).answers
      = largestLoads config seeds (trials ∪ Finset.Ico r (r + more)) := by
  induction more generalizing r sim trials with
  | zero => simpa [advance] using answers
  | succ more ih =>
    have next : (sim.trial (seeds.source r)).config = config := same
    have numbers : insert r (Finset.Ico (r + 1) (r + 1 + more))
        = Finset.Ico r (r + (more + 1)) := by
      ext number
      simp only [Finset.mem_insert, Finset.mem_Ico]
      omega
    rw [advance, ih next (answers_trial seeds same answers r), Finset.insert_union_comm, numbers]

/-- In the first run the answers are the largest loads of the trials so far. -/
theorem answers_of_made (made : ofConfig config = .ok sim) (trials : Nat) :
    (sim.advance seeds 0 trials).answers = largestLoads config seeds (Finset.range trials) := by
  obtain ⟨-, -, start⟩ := ofConfig_eq_ok_iff.mp made
  have same : sim.config = config := by rw [start]
  have none_yet : sim.answers = largestLoads config seeds ∅ := by rw [start, largestLoads_empty]
  rw [answers_advance seeds same none_yet, Finset.empty_union, Nat.zero_add, Finset.range_eq_Ico]

end Simulation

end PirTuning.BinLoad
