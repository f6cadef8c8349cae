import PirTuning.Checkpoint.Row

/-!
# Checkpoint places

A checkpoint is kept at a place of a file system.  The place may hold a file or
still be free; it may also be blocked, for instance by a directory of that name,
and then nothing can be kept there.  Rows are only ever added.
-/

namespace PirTuning.Checkpoint

/-! ## Errors -/

/-- Why nothing can be kept at a place, as the operating system numbers and words it. -/
structure Failure where
  number : Nat
  description : String
  deriving Repr, DecidableEq

namespace Failure

def notFound : Failure := ⟨2, "No such file or directory"⟩
def notDirectory : Failure := ⟨20, "Not a directory"⟩
def isDirectory : Failure := ⟨21, "Is a directory"⟩
def noSpace : Failure := ⟨28, "No space left on device"⟩
def nameTooLong : Failure := ⟨36, "File name too long"⟩

def message (cause : Failure) : String :=
  s!"I/O error: {cause.description} (os error {cause.number})"

end Failure

inductive LoadError where
  | failure (cause : Failure)
  | notText
  | malformed (line : String)
  deriving Repr, DecidableEq

def LoadError.message : LoadError → String
  | .failure cause => cause.message
  | .notText => "I/O error: stream did not contain valid UTF-8"
  | .malformed line => s!"malformed checkpoint row: {line}"

/-! ## Places -/

inductive Place where
  | blocked (cause : Failure)
  | free
  | file (content : ByteArray)

namespace Place

/-- Add rows.  A free place becomes a file, even if there are no rows. -/
def append (place : Place) (rows : List Row) : Except Failure Place :=
  match place with
  | .blocked cause => .error cause
  | .free => .ok (.file (renderRows rows).toUTF8)
  | .file content => .ok (.file (content ++ (renderRows rows).toUTF8))

def load (place : Place) : Except LoadError (List Row) :=
  match place with
  | .blocked cause => .error (.failure cause)
  | .free => .error (.failure .notFound)
  | .file content =>
    match String.fromUTF8? content with
    | none => .error .notText
    | some text =>
      match parseRows text with
      | .ok rows => .ok rows
      | .error line => .error (.malformed line)

def text? (place : Place) : Option String :=
  match place with
  | .file content => String.fromUTF8? content
  | .blocked _ => none
  | .free => none

@[simp] theorem append_file (content : ByteArray) (rows : List Row) :
    (file content).append rows = .ok (.file (content ++ (renderRows rows).toUTF8)) := rfl
@[simp] theorem append_free (rows : List Row) :
    free.append rows = .ok (.file (renderRows rows).toUTF8) := rfl

end Place

end PirTuning.Checkpoint
