import Mathlib.Data.List.Basic
import PirTuning.Proofs.BinLoad.Trials
import PirTuning.Proofs.Checkpoint.Appending

/-!
# What a run saves

A run throws its trials and saves some of its states on the way.  Which states it
saves, and with which numbers of trials, is known before anything is written:
`Simulation.saves` lists it.  `run_eq` says that a run is nothing but this list,
written one after the other; the first save that fails ends the run in the state that
was to be saved.
-/

namespace PirTuning.BinLoad

open PirTuning.Checkpoint (Row Failure Place renderRows renderRows_append)

/-! ## Saves -/

/-- A save: the state at that moment, and the number of trials its rows tell. -/
structure Save where
  state : Simulation
  label : Nat

def Save.rows (save : Save) : List Row :=
  save.state.rows save.label

/-- The number of trials that a save tells, and the one that were completed. -/
def Save.told (save : Save) : Nat × Nat :=
  (save.label, save.state.completed)

/-- Write saves one after the other, up to the first one that fails.  If none does,
    what is left is the state that the run ends in. -/
def writeAll {m : Type → Type} [Monad m] (write : List Row → m (Except Failure Unit))
    (final : Simulation) : List Save → m (Except Failure Unit × Simulation)
  | [] => pure (.ok (), final)
  | save :: later => do
    match ← write save.rows with
    | .error cause => pure (.error cause, save.state)
    | .ok () => writeAll write final later

namespace Simulation

variable {γ : Type} [WordSource γ]

/-- The saves of some trials, which are made at the milestones. -/
def milestones (seeds : Seeds γ) (r trials : Nat) (sim : Simulation) : List Save :=
  ((states seeds r trials sim).filter fun state => isMilestone state.completed).map
    fun state => ⟨state, state.completed⟩

/-- The state that a run ends in. -/
def finish (seeds : Seeds γ) (sim : Simulation) : Simulation :=
  sim.advance seeds 0 sim.config.runs

/-- The save at the end of a run, if the length of the run asks for one. -/
def lastSave (seeds : Seeds γ) (sim : Simulation) : List Save :=
  if isMilestone sim.config.runs then [] else [⟨sim.finish seeds, sim.config.runs⟩]

/-- The saves of a run. -/
def saves (seeds : Seeds γ) (sim : Simulation) : List Save :=
  sim.milestones seeds 0 sim.config.runs ++ sim.lastSave seeds

/-! ## Runs as lists of saves -/

section Generic

variable {m : Type → Type} [Monad m] (write : List Row → m (Except Failure Unit))

theorem milestones_succ (seeds : Seeds γ) (r trials : Nat) (sim : Simulation) :
    sim.milestones seeds r (trials + 1) =
      if isMilestone (sim.completed + 1) then
        ⟨sim.trial (seeds.source r), sim.completed + 1⟩ ::
          (sim.trial (seeds.source r)).milestones seeds (r + 1) trials
      else (sim.trial (seeds.source r)).milestones seeds (r + 1) trials := by
  cases power : isMilestone (sim.completed + 1) <;> simp [milestones, states, power]

theorem trialsFrom_eq (seeds : Seeds γ) (r trials : Nat) (sim : Simulation) :
    trialsFrom write seeds r trials sim =
      writeAll write (sim.advance seeds r trials) (sim.milestones seeds r trials) := by
  induction trials generalizing r sim with
  | zero => rfl
  | succ trials ih =>
    rw [trialsFrom, milestones_succ]
    simp only [ih, completed_trial]
    split <;> rfl

theorem writeAll_append [LawfulMonad m] (final : Simulation) (saves later : List Save) :
    writeAll write final (saves ++ later) = (do
      match ← writeAll write final saves with
      | (.error cause, state) => pure (.error cause, state)
      | (.ok (), _) => writeAll write final later) := by
  induction saves with
  | nil => simp [writeAll]
  | cons save saves ih =>
    simp only [List.cons_append, writeAll, ih, bind_assoc]
    congr 1
    funext result
    cases result <;> simp

/-- What follows the saves may count on the final state, if all of them could be
    written. -/
theorem writeAll_bind_congr [LawfulMonad m] {α : Type} {final : Simulation}
    {next next' : Except Failure Unit × Simulation → m α}
    (stopped : ∀ cause state, next (.error cause, state) = next' (.error cause, state))
    (written : next (.ok (), final) = next' (.ok (), final)) (saves : List Save) :
    writeAll write final saves >>= next = writeAll write final saves >>= next' := by
  induction saves with
  | nil => simpa [writeAll] using written
  | cons save saves ih =>
    simp only [writeAll, bind_assoc]
    congr 1
    funext result
    cases result with
    | error cause => simpa using stopped cause save.state
    | ok => exact ih

/-- A run writes its saves.  It answers if all of them could be written, and stops in the
    state of the first one that could not. -/
theorem run_eq [LawfulMonad m] (seeds : Seeds γ) (sim : Simulation) :
    run write seeds sim = (do
      let (result, sim') ← writeAll write (sim.finish seeds) (sim.saves seeds)
      pure (result.map fun _ => sim'.answers, sim')) := by
  rw [run, trialsFrom_eq, saves, writeAll_append, bind_assoc]
  refine writeAll_bind_congr write ?_ ?_ _
  · intro cause state
    simp [Except.map]
  · -- all milestones are written, so the last save is one of the final state
    have runs : (sim.advance seeds 0 sim.config.runs).config.runs = sim.config.runs := by
      rw [config_advance]
    cases power : isMilestone sim.config.runs with
    | true => simp [runs, power, lastSave, writeAll, finish, Except.map]
    | false =>
      simp only [runs, power, lastSave, finish, if_neg Bool.false_ne_true, writeAll, bind_assoc]
      congr 1
      funext result
      cases result <;> simp [Except.map]

end Generic

end Simulation

/-! ## Saves that succeed -/

/-- Nothing is in the way of a save: where it may be made it succeeds, and others may
    follow. -/
structure Works {σ : Type} (save : List Row → StateM σ (Except Failure Unit))
    (usable : σ → Prop) : Prop where
  succeeds : ∀ {s}, usable s → ∀ rows, (save rows s).1 = .ok ()
  stays : ∀ {s}, usable s → ∀ rows, usable (save rows s).2

section

variable {γ : Type} [WordSource γ] {σ : Type} {save : List Row → StateM σ (Except Failure Unit)}
  {usable : σ → Prop} {s : σ}

theorem Works.writeAll (works : Works save usable) (start : usable s) (final : Simulation)
    (saves : List Save) : (BinLoad.writeAll save final saves s).1 = (.ok (), final) := by
  induction saves generalizing s with
  | nil => rfl
  | cons first saves ih =>
    have rest := ih (works.stays start first.rows)
    have written := works.succeeds start first.rows
    simp only [BinLoad.writeAll, bind, StateT.bind]
    cases result : save first.rows s with
    | mk outcome s' =>
      rw [result] at written rest
      subst written
      exact rest

/-- A run whose saves succeed answers, and the state it ends in does not depend on where
    it saved. -/
theorem Works.run (works : Works save usable) (start : usable s) (seeds : Seeds γ)
    (sim : Simulation) :
    (sim.run save seeds s).1 = (.ok (sim.finish seeds).answers, sim.finish seeds) := by
  have written := works.writeAll start (sim.finish seeds) (sim.saves seeds)
  rw [Simulation.run_eq]
  simp only [bind, StateT.bind]
  cases result : BinLoad.writeAll save (sim.finish seeds) (sim.saves seeds) s with
  | mk outcome s' =>
    rw [result] at written
    subst written
    rfl

end

theorem works_noSave (σ : Type) : Works (noSave : List Row → StateM σ _) fun _ => True where
  succeeds _ _ := rfl
  stays _ _ := trivial

/-! ## Writers of a file -/

/-- A writer that adds rows to one file: at the start the file has some content or is not
    there, and `holding` is the state in which it has a given content. -/
structure Appends {σ : Type} (write : List Row → StateM σ (Except Failure Unit)) (start : σ)
    (old : ByteArray) (holding : ByteArray → σ) : Prop where
  first : ∀ rows, write rows start = (.ok (), holding (old ++ (renderRows rows).toUTF8))
  later : ∀ content rows,
    write rows (holding content) = (.ok (), holding (content ++ (renderRows rows).toUTF8))

theorem appends_saveAtPlace {place : Place} {old : ByteArray}
    (content : place.content? = some old) : Appends saveAtPlace place old .file where
  first rows := by rw [saveAtPlace, Place.append_of_content content]
  later _ _ := rfl

section

variable {γ : Type} [WordSource γ] {σ : Type} {write : List Row → StateM σ (Except Failure Unit)}
  {start : σ}

/-- Saves go behind what is there. -/
theorem Appends.writeAll {old : ByteArray} {holding : ByteArray → σ}
    (appends : Appends write start old holding) (final : Simulation) (save : Save)
    (later : List Save) :
    BinLoad.writeAll write final (save :: later) start
      = ((.ok (), final),
          holding (old ++ (renderRows ((save :: later).flatMap Save.rows)).toUTF8)) := by
  induction later generalizing save start old with
  | nil =>
    rw [BinLoad.writeAll]
    simp only [bind, StateT.bind, appends.first, List.flatMap_singleton]
    rfl
  | cons next later ih =>
    -- from the second save on the file is there
    have behind : Appends write (holding (old ++ (renderRows save.rows).toUTF8)) _ holding :=
      ⟨appends.later _, appends.later⟩
    rw [BinLoad.writeAll]
    simp only [bind, StateT.bind, appends.first]
    rw [ih behind next]
    simp only [List.flatMap_cons, renderRows_append, String.toUTF8_eq_toByteArray,
      String.toByteArray_append, ByteArray.append_assoc]

theorem Appends.run {old : ByteArray} {holding : ByteArray → σ}
    (appends : Appends write start old holding) (seeds : Seeds γ) {sim : Simulation}
    (some_save : sim.saves seeds ≠ []) :
    sim.run write seeds start
      = ((.ok (sim.finish seeds).answers, sim.finish seeds),
          holding (old ++ (renderRows ((sim.saves seeds).flatMap Save.rows)).toUTF8)) := by
  rw [Simulation.run_eq]
  cases saves : sim.saves seeds with
  | nil => exact absurd saves some_save
  | cons save later =>
    simp only [bind, StateT.bind, appends.writeAll]
    rfl

end

/-! ## Saving at a place -/

/-- The place where some saves were made, which was free before. -/
def savedPlace : List Save → Place
  | [] => .free
  | saves => .file (renderRows (saves.flatMap Save.rows)).toUTF8

theorem content?_savedPlace (saves : List Save) :
    (savedPlace saves).content? = some (renderRows (saves.flatMap Save.rows)).toUTF8 := by
  cases saves <;> rfl

theorem savedPlace_append {later : List Save} (some_save : later ≠ []) (saves : List Save) :
    savedPlace (saves ++ later)
      = .file ((renderRows (saves.flatMap Save.rows)).toUTF8
          ++ (renderRows (later.flatMap Save.rows)).toUTF8) := by
  have all : savedPlace (saves ++ later)
      = .file (renderRows ((saves ++ later).flatMap Save.rows)).toUTF8 := by
    cases saves with
    | nil =>
      cases later with
      | nil => exact absurd rfl some_save
      | cons => rfl
    | cons => rfl
  rw [all, List.flatMap_append, renderRows_append]
  simp only [String.toUTF8_eq_toByteArray, String.toByteArray_append]

/-- Where saves were made before, a run succeeds and adds its own. -/
theorem run_savedPlace {γ : Type} [WordSource γ] (seeds : Seeds γ) (sim : Simulation)
    (saves : List Save) :
    sim.run saveAtPlace seeds (savedPlace saves) =
      ((.ok (sim.finish seeds).answers, sim.finish seeds),
        savedPlace (saves ++ sim.saves seeds)) := by
  by_cases none : sim.saves seeds = []
  · rw [Simulation.run_eq, none, List.append_nil]
    rfl
  · rw [(appends_saveAtPlace (content?_savedPlace saves)).run seeds none, savedPlace_append none]

end PirTuning.BinLoad
