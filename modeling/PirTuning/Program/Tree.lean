import PirTuning.Program.Files

/-!
# Directory trees

A file system whose directories are known and do not change.  There are no links in it, so
each place is told by the steps that lead to it from the root.
-/

namespace PirTuning.Program

open PirTuning.Checkpoint (Failure)

def maxNameBytes : Nat := 255

def maxPathBytes : Nat := 4095

/-- Slashes next to each other count as one. -/
def pathSteps (path : List Char) : List String :=
  ((path.splitOn '/').filter fun step => !step.isEmpty).map String.ofList

/-- The directories below the root, the one that the program runs in, and the files that take
    no data, such as a full device. -/
structure Tree where
  directories : List (List String)
  current : List String
  full : List (List String) := []
  deriving Repr, DecidableEq

namespace Tree

def isDirectory (tree : Tree) (place : List String) : Bool :=
  place.isEmpty || tree.directories.contains place

/-- A single dot stays, two dots go up.  The last step names the file, which a dot or a
    slash behind it turns into a directory.  Any other step has to name a directory. -/
def follow (tree : Tree) (isFile : List String → Bool) (slash : Bool) :
    (place : List String) → (steps : List String) → Except Failure (List String)
  | _, [] => .error .isDirectory
  | place, [step] =>
    if step = "." ∨ step = ".." ∨ slash then .error .isDirectory
    else if maxNameBytes < step.utf8ByteSize then .error .nameTooLong
    else if tree.isDirectory (place ++ [step]) then .error .isDirectory
    else .ok (place ++ [step])
  | place, step :: rest =>
    if step = "." then follow tree isFile slash place rest
    else if step = ".." then follow tree isFile slash place.dropLast rest
    else if maxNameBytes < step.utf8ByteSize then .error .nameTooLong
    else if tree.isDirectory (place ++ [step]) then
      follow tree isFile slash (place ++ [step]) rest
    else .error (if isFile (place ++ [step]) then .notDirectory else .notFound)

def target (tree : Tree) (files : Files (List String)) (path : String) :
    Except Failure (List String) :=
  let cs := path.toList
  -- the length of the whole path counts before any step is taken
  if path.isEmpty then .error .notFound
  else if maxPathBytes < path.utf8ByteSize then .error .nameTooLong
  else
    tree.follow (fun place => (files.lookup place).isSome) (cs.getLast? == some '/')
      (if cs.head? == some '/' then [] else tree.current) (pathSteps cs)

/-- Files only matter where they are in the way. -/
theorem follow_eq_of_ok {tree : Tree} {isFile : List String → Bool} {slash : Bool}
    {place steps file : List String} (leads : tree.follow isFile slash place steps = .ok file)
    (isFile' : List String → Bool) : tree.follow isFile' slash place steps = .ok file := by
  -- files are looked at only to name a failure, so every case that succeeds is the same
  fun_induction follow tree isFile slash place steps with
  | case1 => cases leads
  | case2 => cases leads
  | case3 => cases leads
  | case4 => cases leads
  | case5 place step named fits free => rwa [follow, if_neg named, if_neg fits, if_neg free]
  | case6 place rest some_rest ih =>
    rw [follow.eq_3 _ _ _ _ _ _ some_rest, if_pos rfl]
    exact ih leads
  | case7 place rest some_rest stay ih =>
    rw [follow.eq_3 _ _ _ _ _ _ some_rest, if_neg stay, if_pos rfl]
    exact ih leads
  | case8 => cases leads
  | case9 place step rest some_rest stay up fits inside ih =>
    rw [follow.eq_3 _ _ _ _ _ _ some_rest, if_neg stay, if_neg up, if_neg fits, if_pos inside]
    exact ih leads
  | case10 => cases leads

theorem target_eq_of_ok {tree : Tree} {files : Files (List String)} {path : String}
    {file : List String} (leads : tree.target files path = .ok file)
    (files' : Files (List String)) : tree.target files' path = .ok file := by
  simp only [target] at leads ⊢
  split at leads
  · cases leads
  · split at leads
    · cases leads
    · next nonempty short =>
      rw [if_neg nonempty, if_neg short]
      exact follow_eq_of_ok leads _

def system (tree : Tree) : FileSystem (List String) where
  target := tree.target
  writing _ file _ := if tree.full.contains file then .stopped 0 .noSpace else .done
  target_put _ leads again := by
    rw [target_eq_of_ok leads] at again
    exact (Except.ok.inj again).symm

end Tree

end PirTuning.Program
