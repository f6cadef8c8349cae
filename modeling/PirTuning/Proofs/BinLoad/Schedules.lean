import Mathlib.Data.List.GetD
import PirTuning.BinLoad.Schedule
import PirTuning.Proofs.BinLoad.Answers
import PirTuning.Proofs.BinLoad.Streams

/-!
# Any schedule comes to the same answers

Answers only rise, and they rise to loads that belong to a trial of the run.  So it does
not matter when a load arrives: once all trials are counted each answer is the largest of
all loads.  `Underway` is what every step of every worker keeps.
-/

namespace PirTuning.BinLoad

open PirTuning.Checkpoint (Row Failure)

namespace Crew

variable {γ : Type} [WordSource γ] {config : Config} {seeds : Seeds γ} {crew crew' : Crew γ}

/-! ## Trials on their way -/

/-- A trial has read the words of the ball counts that it has thrown, and the answers know
    their loads. -/
structure OnCourse (config : Config) (seeds : Seeds γ) (answers : List Nat) (trial : Ongoing γ) :
    Prop where
  number_lt : trial.number < config.runs
  left_eq : trial.left = config.ballCounts.drop trial.thrown
  source_eq : trial.source = skip (config.ballCounts.take trial.thrown).sum
    (seeds.source trial.number)
  raised : ∀ j < trial.thrown, trialLoad config seeds trial.number j ≤ answers.getD j 0

/-- Where a run is: its trials are waiting, on their way or done, and the answers are
    between the loads that have arrived and the largest loads of all. -/
structure Underway (config : Config) (seeds : Seeds γ) (crew : Crew γ) : Prop where
  length_eq : crew.answers.length = config.ballCounts.length
  total : crew.waiting.length + crew.begun.length + crew.completed = config.runs
  waiting_lt : ∀ number ∈ crew.waiting, number < config.runs
  onCourse : ∀ trial ∈ crew.begun, OnCourse config seeds crew.answers trial
  accounted : ∀ number < config.runs, number ∈ crew.waiting ∨
    number ∈ crew.begun.map Ongoing.number ∨
    ∀ j < config.ballCounts.length, trialLoad config seeds number j ≤ crew.answers.getD j 0
  bounded : ∀ j, crew.answers.getD j 0 ≤
    (Finset.range config.runs).sup fun number => trialLoad config seeds number j

theorem Underway.start (config : Config) (seeds : Seeds γ) :
    Underway config seeds (Crew.start config) where
  length_eq := by simp [Crew.start]
  total := by simp [Crew.start]
  waiting_lt := by simp [Crew.start]
  onCourse := by simp [Crew.start]
  accounted number lt := .inl (List.mem_range.mpr lt)
  bounded j := by
    have none_yet : (Crew.start config : Crew γ).answers.getD j 0 = 0 := by
      simp only [Crew.start, List.map_const', List.getD_eq_getElem?_getD, List.getElem?_replicate]
      split <;> rfl
    rw [none_yet]
    exact Nat.zero_le _

/-! ## Raised answers -/

section

variable {answers : List Nat} {position : Nat} (lt : position < answers.length) (load j : Nat)

include lt

theorem getD_raise :
    (answers.modify position (max load)).getD j 0
      = if j = position then max load (answers.getD j 0) else answers.getD j 0 := by
  rw [List.getD_eq_getElem?_getD, List.getElem?_modify]
  by_cases here : position = j
  · subst here
    simp [lt]
  · simp [here, Ne.symm here]

theorem le_getD_raise : answers.getD j 0 ≤ (answers.modify position (max load)).getD j 0 := by
  rw [getD_raise lt]
  split
  · exact le_max_right _ _
  · exact le_rfl

theorem load_le_getD_raise : load ≤ (answers.modify position (max load)).getD position 0 := by
  rw [getD_raise lt, if_pos rfl]
  exact le_max_left _ _

end

theorem OnCourse.mono {answers answers' : List Nat} {trial : Ongoing γ}
    (course : OnCourse config seeds answers trial)
    (le : ∀ j, answers.getD j 0 ≤ answers'.getD j 0) : OnCourse config seeds answers' trial :=
  { course with raised := fun j lt => (course.raised j lt).trans (le j) }

/-! ## One step -/

section

variable {answers left : List Nat} {number thrown balls : Nat} {source : γ}

/-- What a trial throws next is the ball count at its position. -/
theorem OnCourse.next
    (course : OnCourse config seeds answers ⟨number, thrown, balls :: left, source⟩) :
    thrown < config.ballCounts.length ∧ config.ballCounts.getD thrown 0 = balls ∧
      left = config.ballCounts.drop (thrown + 1) := by
  have drop_eq := course.left_eq
  have lt : thrown < config.ballCounts.length := by
    by_contra beyond
    rw [List.drop_of_length_le (Nat.not_lt.mp beyond)] at drop_eq
    cases drop_eq
  rw [List.drop_eq_getElem_cons lt] at drop_eq
  obtain ⟨rfl, rfl⟩ := List.cons.inj drop_eq
  exact ⟨lt, List.getD_eq_getElem _ _ lt, rfl⟩

theorem OnCourse.maxLoad_eq
    (course : OnCourse config seeds answers ⟨number, thrown, balls :: left, source⟩) :
    (throwBalls config.scheme.bins balls source).maxLoad
      = trialLoad config seeds number thrown := by
  obtain ⟨-, rfl, -⟩ := course.next
  have source_eq : source = _ := course.source_eq
  rw [source_eq, Scheme.bins_eq, maxLoad_eq_countedLoad config.scheme.binBits_lt]
  rfl

theorem OnCourse.raise
    (course : OnCourse config seeds answers ⟨number, thrown, balls :: left, source⟩)
    (length_eq : answers.length = config.ballCounts.length) :
    OnCourse config seeds
      (answers.modify thrown (max (throwBalls config.scheme.bins balls source).maxLoad))
      ⟨number, thrown + 1, left, (throwBalls config.scheme.bins balls source).source⟩ := by
  have maxLoad_eq := course.maxLoad_eq
  obtain ⟨lt, rfl, left_eq⟩ := course.next
  have inside : thrown < answers.length := length_eq.symm ▸ lt
  refine ⟨course.number_lt, left_eq, ?_, ?_⟩
  · -- the ball count took as many words as it has balls
    have source_eq : source = _ := course.source_eq
    have words : (config.ballCounts.take (thrown + 1)).sum
        = (config.ballCounts.take thrown).sum + config.ballCounts.getD thrown 0 := by
      rw [List.take_add_one, List.sum_append, List.getElem?_eq_getElem lt]
      simp [lt]
    rw [words, ← skip_skip, ← source_eq, Scheme.bins_eq,
      source_throwBalls_two_pow config.scheme.binBits_lt]
  · intro j below
    rcases Nat.lt_succ_iff_lt_or_eq.mp below with earlier | rfl
    · exact (course.raised j earlier).trans (le_getD_raise inside _ j)
    · rw [maxLoad_eq]
      exact load_le_getD_raise inside _

/-- An answer rises to a load that is one of those that the bound is the largest of. -/
theorem OnCourse.getD_raise_le
    (course : OnCourse config seeds answers ⟨number, thrown, balls :: left, source⟩)
    (inside : thrown < answers.length)
    (bounded : ∀ j, answers.getD j 0 ≤
      (Finset.range config.runs).sup fun number => trialLoad config seeds number j) (j : Nat) :
    (answers.modify thrown (max (throwBalls config.scheme.bins balls source).maxLoad)).getD j 0 ≤
      (Finset.range config.runs).sup fun number => trialLoad config seeds number j := by
  rw [getD_raise inside]
  split
  next here =>
    rw [here, course.maxLoad_eq]
    exact max_le (Finset.le_sup (f := fun number => trialLoad config seeds number thrown)
      (Finset.mem_range.mpr course.number_lt)) (bounded thrown)
  next => exact bounded j

theorem OnCourse.all_raised
    (course : OnCourse config seeds answers ⟨number, thrown, [], source⟩) {j : Nat}
    (lt : j < config.ballCounts.length) : trialLoad config seeds number j ≤ answers.getD j 0 := by
  -- nothing is left, so the trial is past every position
  have beyond : config.ballCounts.length ≤ thrown := List.drop_eq_nil_iff.mp course.left_eq.symm
  exact course.raised j (lt.trans_le beyond)

end

theorem Underway.step (underway : Underway config seeds crew)
    (step : Step config seeds crew crew') : Underway config seeds crew' := by
  obtain ⟨length_eq, total, waiting_lt, onCourse, accounted, bounded⟩ := underway
  cases step with
  | begin before after number begun answers completed =>
    -- the trial goes from those that wait to those on their way, with its own generator
    simp only [List.forall_mem_append, List.forall_mem_cons] at waiting_lt
    refine ⟨length_eq, ?_, ?_, ?_, ?_, bounded⟩
    · simp only [List.length_append, List.length_cons] at total ⊢
      omega
    · rw [List.forall_mem_append]
      exact ⟨waiting_lt.1, waiting_lt.2.2⟩
    · rw [List.forall_mem_cons]
      exact ⟨⟨waiting_lt.2.1, rfl, rfl, by simp⟩, onCourse⟩
    · intro other lt
      have before_step := accounted other lt
      simp only [List.mem_append, List.mem_cons, List.map_cons] at before_step ⊢
      tauto
  | raise waiting before after number thrown balls left source answers completed =>
    -- one answer rises, so all loads that had arrived still have
    simp only [List.forall_mem_append, List.forall_mem_cons] at onCourse
    obtain ⟨front, course, back⟩ := onCourse
    have inside : thrown < answers.length := length_eq.symm ▸ course.next.1
    have rises := le_getD_raise inside (throwBalls config.scheme.bins balls source).maxLoad
    refine ⟨by simpa using length_eq, by simpa using total, waiting_lt, ?_, ?_,
      course.getD_raise_le inside bounded⟩
    · simp only [List.forall_mem_append, List.forall_mem_cons]
      exact ⟨fun trial member => (front trial member).mono rises, course.raise length_eq,
        fun trial member => (back trial member).mono rises⟩
    · intro other lt
      rcases accounted other lt with unbegun | ongoing | arrived
      · exact .inl unbegun
      · exact .inr (.inl (by simpa using ongoing))
      · exact .inr (.inr fun j below => (arrived j below).trans (rises j))
  | count waiting before after number thrown source answers completed =>
    -- the trial leaves those on their way, and all of its loads have arrived
    simp only [List.forall_mem_append, List.forall_mem_cons] at onCourse
    obtain ⟨front, course, back⟩ := onCourse
    refine ⟨length_eq, ?_, waiting_lt, ?_, ?_, bounded⟩
    · simp only [List.length_append, List.length_cons] at total ⊢
      omega
    · rw [List.forall_mem_append]
      exact ⟨front, back⟩
    · intro other lt
      by_cases own : other = number
      · subst own
        exact .inr (.inr fun j below => course.all_raised below)
      · have before_step := accounted other lt
        simp only [List.map_append, List.map_cons, List.mem_append, List.mem_cons, own]
          at before_step ⊢
        tauto

theorem Underway.steps (underway : Underway config seeds crew)
    (steps : Steps config seeds crew crew') : Underway config seeds crew' := by
  induction steps with
  | refl => exact underway
  | step head _ ih => exact ih (underway.step head)

theorem Underway.answers_eq (underway : Underway config seeds crew) (done : crew.Done) :
    crew.answers = largestLoads config seeds (Finset.range config.runs) := by
  obtain ⟨length_eq, -, -, -, accounted, bounded⟩ := underway
  have lengths : crew.answers.length
      = (largestLoads config seeds (Finset.range config.runs)).length := by
    rw [length_eq, length_largestLoads]
  apply List.ext_getElem lengths
  intro j lt lt'
  have below : j < config.ballCounts.length := length_eq ▸ lt
  rw [← List.getD_eq_getElem _ 0 lt, ← List.getD_eq_getElem _ 0 lt', getD_largestLoads _ _ below]
  -- no answer is above the largest load, and now that all loads have arrived none is below
  apply le_antisymm (bounded j)
  apply Finset.sup_le
  intro number member
  have arrived := accounted number (Finset.mem_range.mp member)
  rw [done.1, done.2] at arrived
  simp only [List.map_nil, List.not_mem_nil, false_or] at arrived
  exact arrived j below

theorem Underway.completed_eq (underway : Underway config seeds crew) (done : crew.Done) :
    crew.completed = config.runs := by
  have total := underway.total
  rw [done.1, done.2] at total
  simpa using total

end Crew

/-! ## The answers of a first run -/

/-- What a first run answers: for each ball count the largest load among the trials, each of
    which finds the words of the ball count in the stream of its own generator, whatever is in
    the array that the trials share.  The run answers so wherever its saves succeed, and so
    does every schedule of it that has come to its end, as each of them can. -/
theorem answers_of_first_run {γ : Type} [WordSource γ] (config : Config) (seeds : Seeds γ)
    (some_run : config.runs ≠ 0) (some_count : config.ballCounts ≠ []) :
    config.scheme.bins = 2 ^ config.scheme.binBits ∧
    (∀ r scratch, trialLoadsIn? config.scheme.bins config.ballCounts scratch (seeds.source r)
      = some ((List.range config.ballCounts.length).map (trialLoad config seeds r))) ∧
    (∃ sim, Simulation.ofConfig config = .ok sim ∧
      ∀ {σ : Type} (save : List Row → StateM σ (Except Failure Unit)) (usable : σ → Prop),
        Works save usable → ∀ s, usable s →
          (sim.run save seeds s).1.1
            = .ok (largestLoads config seeds (Finset.range config.runs))) ∧
    ∀ crew, Crew.Steps config seeds (Crew.start config) crew →
      (∃ last, Crew.Steps config seeds crew last ∧ last.Done) ∧
      (crew.Done → crew.answers = largestLoads config seeds (Finset.range config.runs) ∧
        crew.completed = config.runs) := by
  have some_bin : 0 < config.scheme.bins := Scheme.bins_eq config.scheme ▸ Nat.two_pow_pos _
  have fits : config.scheme.bins < 2 ^ 64 :=
    Scheme.bins_eq config.scheme ▸ Nat.pow_lt_pow_right (by decide) config.scheme.binBits_lt
  refine ⟨Scheme.bins_eq _, fun r scratch => ?_, ?_,
    fun crew steps => ⟨Crew.exists_complete crew, ?_⟩⟩
  · rw [trialLoadsIn?_eq some_bin fits, trialLoads_source]
  · have made : Simulation.ofConfig config
        = .ok ⟨config, config.ballCounts.map fun _ => 0, 0⟩ :=
      Simulation.ofConfig_eq_ok_iff.mpr ⟨some_run, some_count, rfl⟩
    refine ⟨_, made, fun save usable works s start => ?_⟩
    rw [works.run start]
    exact congrArg Except.ok (Simulation.answers_of_made seeds made config.runs)
  · intro done
    have underway := (Crew.Underway.start config seeds).steps steps
    exact ⟨underway.answers_eq done, underway.completed_eq done⟩

/-- Two trials that take turns, the later one first. -/
theorem answers_of_two_trials :
    let config : Config := ⟨.paillier, [2, 20], 2, some 5, none⟩
    (∃ sim, Simulation.ofConfig config = .ok sim ∧
      ((sim.run noSave (Xoshiro.seeds 5) : StateM Unit _) ()).1.1 = .ok [1, 2]) ∧
    ∃ crew, Crew.Steps config (Xoshiro.seeds 5) (Crew.start config) crew ∧ crew.Done ∧
      crew.answers = [1, 2] := by
  intro config
  have loads : largestLoads config (Xoshiro.seeds 5) (Finset.range 2) = [1, 2] := by decide +kernel
  obtain ⟨-, -, ⟨sim, made, answers⟩, schedules⟩ :=
    answers_of_first_run config (Xoshiro.seeds 5) (by decide) (List.cons_ne_nil 2 [20])
  have run : ∃ answers, Crew.Steps config (Xoshiro.seeds 5) (Crew.start config)
      ⟨[], [], answers, 2⟩ := by
    exact ⟨_, .step (.begin [0] [] 1 [] _ 0)
      (.step (.begin [] [] 0 _ _ 0)
      (.step (.raise [] [_] [] 1 0 2 [20] _ _ 0)
      (.step (.raise [] [] [_] 0 0 2 [20] _ _ 0)
      (.step (.raise [] [_] [] 1 1 20 [] _ _ 0)
      (.step (.raise [] [] [_] 0 1 20 [] _ _ 0)
      (.step (.count [] [] [_] 0 2 _ _ 0)
      (.step (.count [] [] [] 1 2 _ _ 1) (.refl _))))))))⟩
  obtain ⟨raised, run⟩ := run
  have finished := (schedules _ run).2 ⟨rfl, rfl⟩
  exact ⟨⟨sim, made, (answers noSave _ (works_noSave Unit) () trivial).trans (congrArg _ loads)⟩,
    _, run, ⟨rfl, rfl⟩, finished.1.trans loads⟩

end PirTuning.BinLoad
