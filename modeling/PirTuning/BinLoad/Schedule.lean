import PirTuning.BinLoad.Simulation

/-!
# Simulations with several workers

Workers take the trials of a run in any order.  A trial is at home with its worker: it
has a generator of its own and throws its ball counts one after the other.  Workers meet
only where an answer is raised to a load and where a finished trial is counted, and
each of these is a single step.  Saves only read the answers, so they are left out.
-/

namespace PirTuning.BinLoad

/-- A trial in progress: its number, how many ball counts it has thrown, which ones are
    left, and its generator. -/
structure Ongoing (γ : Type) where
  number : Nat
  thrown : Nat
  left : List Nat
  source : γ
  deriving Repr, DecidableEq

/-- A run by any number of workers: the trials that nobody has begun, those that were
    begun, the answers so far, and the number of trials that were counted. -/
structure Crew (γ : Type) where
  waiting : List Nat
  begun : List (Ongoing γ)
  answers : List Nat
  completed : Nat
  deriving Repr, DecidableEq

namespace Crew

variable {γ : Type}

def start (config : Config) : Crew γ :=
  { waiting := List.range config.runs
    begun := []
    answers := config.ballCounts.map fun _ => 0
    completed := 0 }

def Done (crew : Crew γ) : Prop :=
  crew.waiting = [] ∧ crew.begun = []

variable [WordSource γ]

/-- One step of one worker: begin a trial with its own seed, throw the next ball count of a
    trial and raise its answer to the load, or count a trial that has thrown all of them. -/
inductive Step (config : Config) (seeds : Seeds γ) : Crew γ → Crew γ → Prop where
  | begin (before after : List Nat) (number : Nat) (begun : List (Ongoing γ)) (answers : List Nat)
      (completed : Nat) :
      Step config seeds ⟨before ++ number :: after, begun, answers, completed⟩
        ⟨before ++ after,
          ⟨number, 0, config.ballCounts, seeds.source number⟩ :: begun,
          answers, completed⟩
  | raise (waiting : List Nat) (before after : List (Ongoing γ)) (number thrown balls : Nat)
      (left : List Nat) (source : γ) (answers : List Nat) (completed : Nat) :
      Step config seeds
        ⟨waiting, before ++ ⟨number, thrown, balls :: left, source⟩ :: after, answers, completed⟩
        ⟨waiting,
          before ++ ⟨number, thrown + 1, left,
            (throwBalls config.scheme.bins balls source).source⟩ :: after,
          answers.modify thrown (max (throwBalls config.scheme.bins balls source).maxLoad),
          completed⟩
  | count (waiting : List Nat) (before after : List (Ongoing γ)) (number thrown : Nat)
      (source : γ) (answers : List Nat) (completed : Nat) :
      Step config seeds
        ⟨waiting, before ++ ⟨number, thrown, [], source⟩ :: after, answers, completed⟩
        ⟨waiting, before ++ after, answers, completed + 1⟩

inductive Steps (config : Config) (seeds : Seeds γ) : Crew γ → Crew γ → Prop where
  | refl (crew : Crew γ) : Steps config seeds crew crew
  | step {first second last : Crew γ} (head : Step config seeds first second)
      (rest : Steps config seeds second last) : Steps config seeds first last

variable {config : Config} {seeds : Seeds γ}

theorem Steps.trans {first second last : Crew γ} (front : Steps config seeds first second)
    (back : Steps config seeds second last) : Steps config seeds first last := by
  induction front with
  | refl => exact back
  | step head _ ih => exact .step head (ih back)

theorem exists_finish (waiting : List Nat) (others : List (Ongoing γ)) (number thrown : Nat)
    (left : List Nat) (source : γ) (answers : List Nat) (completed : Nat) :
    ∃ answers', Steps config seeds
      ⟨waiting, ⟨number, thrown, left, source⟩ :: others, answers, completed⟩
      ⟨waiting, others, answers', completed + 1⟩ := by
  induction left generalizing thrown source answers with
  | nil =>
    exact ⟨answers, .step (.count waiting [] others number thrown source answers completed)
      (.refl _)⟩
  | cons balls left ih =>
    obtain ⟨answers', rest⟩ := ih (thrown + 1) _ _
    exact ⟨answers',
      .step (.raise waiting [] others number thrown balls left source answers completed) rest⟩

theorem exists_finish_all (waiting : List Nat) (begun : List (Ongoing γ)) (answers : List Nat)
    (completed : Nat) :
    ∃ answers' completed', Steps config seeds ⟨waiting, begun, answers, completed⟩
      ⟨waiting, [], answers', completed'⟩ := by
  induction begun generalizing answers completed with
  | nil => exact ⟨answers, completed, .refl _⟩
  | cons trial others ih =>
    obtain ⟨answers₁, finished⟩ := exists_finish waiting others trial.number trial.thrown
      trial.left trial.source answers completed
    obtain ⟨answers₂, completed', rest⟩ := ih answers₁ (completed + 1)
    exact ⟨answers₂, completed', finished.trans rest⟩

/-- Wherever a run is, it can be brought to its end. -/
theorem exists_complete (crew : Crew γ) :
    ∃ last, Steps config seeds crew last ∧ last.Done := by
  obtain ⟨waiting, begun, answers, completed⟩ := crew
  induction waiting generalizing begun answers completed with
  | nil =>
    obtain ⟨_, _, finished⟩ := exists_finish_all [] begun answers completed
    exact ⟨_, finished, rfl, rfl⟩
  | cons number waiting ih =>
    obtain ⟨last, rest, done⟩ := ih _ answers completed
    exact ⟨last, .step (.begin [] waiting number begun answers completed) rest, done⟩

end Crew

end PirTuning.BinLoad
