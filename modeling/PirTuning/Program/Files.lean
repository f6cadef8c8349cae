import PirTuning.Checkpoint.Place

/-!
# Files

Files with their content, and what an operating system does with them: it tells which file a
path leads to, and how far data gets that is added to a file.  Directories, links, devices
and limits are all part of the operating system, which is a parameter.
-/

namespace PirTuning.Program

open PirTuning.Checkpoint (Row Failure renderRows)

structure Files (ι : Type) where
  entries : List (ι × ByteArray) := []

namespace Files

variable {ι : Type} [DecidableEq ι]

def lookup (files : Files ι) (file : ι) : Option ByteArray :=
  files.entries.lookup file

/-- A file that is not there is as good as an empty one. -/
def contentOf (files : Files ι) (file : ι) : ByteArray :=
  (files.lookup file).getD ByteArray.empty

def put (files : Files ι) (file : ι) (content : ByteArray) : Files ι :=
  { entries := (file, content) :: files.entries.filter fun entry => entry.1 != file }

@[simp] theorem lookup_put_self (files : Files ι) (file : ι) (content : ByteArray) :
    (files.put file content).lookup file = some content := by
  simp [put, lookup]

theorem lookup_put_ne (files : Files ι) {file other : ι} (content : ByteArray)
    (differ : other ≠ file) : (files.put file content).lookup other = files.lookup other := by
  have apart : (other == file) = false := by simpa using differ
  simp only [put, lookup, List.lookup_cons, apart]
  induction files.entries with
  | nil => rfl
  | cons entry entries ih =>
    obtain ⟨key, value⟩ := entry
    by_cases same : key = file
    · subst same
      simpa [List.lookup_cons, apart] using ih
    · simp [same, List.lookup_cons, ih]

@[simp] theorem contentOf_put_self (files : Files ι) (file : ι) (content : ByteArray) :
    (files.put file content).contentOf file = content := by
  simp [contentOf]

@[simp] theorem put_put (files : Files ι) (file : ι) (content content' : ByteArray) :
    (files.put file content).put file content' = files.put file content' := by
  simp [put]

end Files

/-- How a write ends: with all of its data in the file, or stopped behind some of it. -/
inductive Writing where
  | done
  | stopped (bytes : Nat) (cause : Failure)
  deriving Repr, DecidableEq

/-- What an operating system does: the file that a path leads to, which is there or can be
    made, and how data is added to a file.  A path that has led to a file leads to no other
    one afterwards. -/
structure FileSystem (ι : Type) [DecidableEq ι] where
  target : Files ι → (path : String) → Except Failure ι
  writing : Files ι → ι → (data : ByteArray) → Writing
  target_put : ∀ {files path file other} (content : ByteArray), target files path = .ok file →
    target (files.put file content) path = .ok other → other = file

namespace FileSystem

variable {ι : Type} [DecidableEq ι]

/-- Add checkpoint rows at a path.  A file that is not there is made, and a write that is
    stopped leaves the first part of its rows behind. -/
def save (system : FileSystem ι) (path : String) (rows : List Row) :
    StateM (Files ι) (Except Failure Unit) :=
  fun files =>
    match system.target files path with
    | .error cause => (.error cause, files)
    | .ok file =>
      let data := (renderRows rows).toUTF8
      match system.writing files file data with
      | .done => (.ok (), files.put file (files.contentOf file ++ data))
      | .stopped bytes cause =>
        (.error cause, files.put file (files.contentOf file ++ data.extract 0 bytes))

def Accepts (system : FileSystem ι) (path : String) : Prop :=
  ∀ files, ∃ file, system.target files path = .ok file ∧
    ∀ data, system.writing files file data = .done

end FileSystem

end PirTuning.Program
