import PirTuning.Program.Files
import PirTuning.Proofs.BinLoad.Saves

/-!
# Saving in a file system

All saves of a run go to the file that the path leads to when the first of them is made, and
each of them goes behind what is there.  A save that fails ends the run; of its rows it may
leave some behind.  `Written` is what every save keeps, whether it fails or not.
-/

namespace PirTuning.Program.FileSystem

open PirTuning.BinLoad (Save Seeds Simulation WordSource Works)
open PirTuning.Checkpoint (Failure Row renderRows renderRows_append)

variable {ι : Type} [DecidableEq ι] {system : FileSystem ι} {path : String}
  {start files : Files ι} {added : ByteArray}

/-! ## One save -/

/-- Some data went behind what was in the file that the path leads to. -/
def Behind (system : FileSystem ι) (path : String) (start : Files ι) (added : ByteArray)
    (files : Files ι) : Prop :=
  ∃ file, system.target start path = .ok file ∧
    files = start.put file (start.contentOf file ++ added)

/-- What saves at a path can have made of the files so far. -/
inductive Written (system : FileSystem ι) (path : String) (start : Files ι) :
    (added : ByteArray) → Files ι → Prop where
  | untouched : Written system path start ByteArray.empty start
  | behind {added : ByteArray} {files : Files ι} (h : Behind system path start added files) :
      Written system path start added files

/-- More data goes to the same file, and behind what was added before. -/
theorem Written.behind_append (written : Written system path start added files) {file : ι}
    (target : system.target files path = .ok file) (more : ByteArray) :
    Behind system path start (added ++ more)
      (files.put file (files.contentOf file ++ more)) := by
  cases written with
  | untouched =>
    refine ⟨file, target, ?_⟩
    rw [ByteArray.empty_append]
  | behind h =>
    obtain ⟨opened, leads, rfl⟩ := h
    obtain rfl := system.target_put _ leads target
    refine ⟨file, leads, ?_⟩
    rw [Files.contentOf_put_self, Files.put_put, ByteArray.append_assoc]

/-- A save fails, and may leave a part of its rows behind, or all of its rows are added. -/
theorem Written.save_cases (written : Written system path start added files) (rows : List Row) :
    (∃ cause more files', system.save path rows files = (.error cause, files') ∧
      Written system path start (added ++ more) files') ∨
    ∃ files', system.save path rows files = (.ok (), files') ∧
      Behind system path start (added ++ (renderRows rows).toUTF8) files' := by
  cases target : system.target files path with
  | error cause =>
    refine .inl ⟨cause, ByteArray.empty, files, ?_, ?_⟩
    · simp only [save, target]
    · rwa [ByteArray.append_empty]
  | ok file =>
    have behind := written.behind_append target
    cases writing : system.writing files file (renderRows rows).toUTF8 with
    | done =>
      refine .inr ⟨_, ?_, behind _⟩
      simp only [save, target, writing]
    | stopped bytes cause =>
      refine .inl ⟨cause, (renderRows rows).toUTF8.extract 0 bytes, _, ?_, .behind (behind _)⟩
      simp only [save, target, writing]

/-! ## All saves of a run -/

/-- The data of some saves. -/
def savedData (saves : List Save) : ByteArray :=
  (renderRows (saves.flatMap Save.rows)).toUTF8

theorem savedData_cons (save : Save) (later : List Save) :
    savedData (save :: later) = (renderRows save.rows).toUTF8 ++ savedData later := by
  simp only [savedData, List.flatMap_cons, renderRows_append, String.toUTF8_eq_toByteArray,
    String.toByteArray_append]

theorem Behind.writeAll_cases (behind : Behind system path start added files) (final : Simulation)
    (saves : List Save) :
    (∃ cause state more files', BinLoad.writeAll (system.save path) final saves files
        = ((.error cause, state), files') ∧ Written system path start (added ++ more) files') ∨
    ∃ files', BinLoad.writeAll (system.save path) final saves files = ((.ok (), final), files') ∧
      Behind system path start (added ++ savedData saves) files' := by
  -- each save finds its file open, with everything before in it
  induction saves generalizing files added with
  | nil =>
    refine .inr ⟨files, rfl, ?_⟩
    rwa [show savedData [] = ByteArray.empty from rfl, ByteArray.append_empty]
  | cons save later ih =>
    rw [BinLoad.writeAll]
    simp only [bind, StateT.bind]
    rcases (Written.behind behind).save_cases save.rows with
      ⟨cause, more, files', saved, kept⟩ | ⟨files', saved, next⟩
    · rw [saved]
      exact .inl ⟨cause, save.state, more, files', rfl, kept⟩
    · rw [saved]
      rcases ih next with ⟨cause, state, more, last, stopped, kept⟩ | ⟨last, written, kept⟩
      · rw [ByteArray.append_assoc] at kept
        exact .inl ⟨cause, state, _, last, stopped, kept⟩
      · rw [ByteArray.append_assoc, ← savedData_cons] at kept
        exact .inr ⟨last, written, kept⟩

/-- The first save opens the file, and the others find it open. -/
theorem writeAll_cases (system : FileSystem ι) (path : String) (start : Files ι)
    (final : Simulation) (save : Save) (later : List Save) :
    (∃ cause state added files, BinLoad.writeAll (system.save path) final (save :: later) start
        = ((.error cause, state), files) ∧ Written system path start added files) ∨
    ∃ files, BinLoad.writeAll (system.save path) final (save :: later) start
        = ((.ok (), final), files) ∧
      Behind system path start (savedData (save :: later)) files := by
  have first : Written system path start ByteArray.empty start := .untouched
  rw [BinLoad.writeAll]
  simp only [bind, StateT.bind]
  rcases first.save_cases save.rows with ⟨cause, more, files, saved, kept⟩ | ⟨files, saved, behind⟩
  · rw [saved]
    exact .inl ⟨cause, save.state, _, files, rfl, kept⟩
  · rw [ByteArray.empty_append] at behind
    rw [saved, savedData_cons]
    rcases behind.writeAll_cases final later with
      ⟨cause, state, more, last, stopped, kept⟩ | written
    · exact .inl ⟨cause, state, _, last, stopped, kept⟩
    · exact .inr written

/-- A run that has something to save ends with a save that fails, or it answers, and then all
    of its rows are in the file. -/
theorem run_cases (system : FileSystem ι) (path : String) {γ : Type} [WordSource γ]
    (seeds : Seeds γ) {sim : Simulation} (start : Files ι) (some_save : sim.saves seeds ≠ []) :
    (∃ cause state added files, sim.run (system.save path) seeds start
        = ((.error cause, state), files) ∧ Written system path start added files) ∨
    ∃ files, sim.run (system.save path) seeds start
        = ((.ok (sim.finish seeds).answers, sim.finish seeds), files) ∧
      Behind system path start (savedData (sim.saves seeds)) files := by
  rw [Simulation.run_eq]
  cases saves : sim.saves seeds with
  | nil => exact absurd saves some_save
  | cons save later =>
    simp only [bind, StateT.bind]
    rcases writeAll_cases system path start (sim.finish seeds) save later with
      ⟨cause, state, added, files, stopped, kept⟩ | ⟨files, written, behind⟩
    · rw [stopped]
      exact .inl ⟨cause, state, added, files, rfl, kept⟩
    · rw [written]
      exact .inr ⟨files, rfl, behind⟩

/-- Where everything gets to its file no save fails. -/
theorem works_of_accepts (accepts : system.Accepts path) :
    Works (system.save path) fun _ => True where
  succeeds {files} _ rows := by
    obtain ⟨file, target, takes⟩ := accepts files
    simp only [save, target, takes]
  stays _ _ := trivial

/-! ## What is left of the files -/

theorem Written.exists_lookup_eq (written : Written system path start added files) {file : ι}
    {content : ByteArray} (found : start.lookup file = some content) :
    ∃ more, files.lookup file = some (content ++ more) := by
  cases written with
  | untouched => exact ⟨ByteArray.empty, by rw [found, ByteArray.append_empty]⟩
  | behind h =>
    obtain ⟨opened, -, rfl⟩ := h
    by_cases own : file = opened
    · subst own
      refine ⟨added, ?_⟩
      rw [Files.lookup_put_self, Files.contentOf, found, Option.getD_some]
    · refine ⟨ByteArray.empty, ?_⟩
      rw [Files.lookup_put_ne _ _ own, found, ByteArray.append_empty]

theorem Written.target_of_changed (written : Written system path start added files) {file : ι}
    (changed : files.lookup file ≠ start.lookup file) : system.target start path = .ok file := by
  cases written with
  | untouched => exact absurd rfl changed
  | behind h =>
    obtain ⟨opened, target, rfl⟩ := h
    by_cases own : file = opened
    · rw [own, target]
    · exact absurd (Files.lookup_put_ne _ _ own) changed

end PirTuning.Program.FileSystem
