/-!
# Outcomes of a program

A program ends with an exit status, with what it wrote to its output, and with a
report on its error stream if it failed.
-/

namespace PirTuning.Program

structure Outcome where
  exit : Nat
  out : String := ""
  err : String := ""
  deriving Repr, DecidableEq

namespace Outcome

def unlines (lines : List String) : String :=
  String.join (lines.map (· ++ "\n"))

def success (lines : List String) : Outcome :=
  { exit := 0, out := unlines lines }

def failure (problem : String) (cause : Option String) : Outcome :=
  let context :=
    match cause with
    | none => ""
    | some inner => s!"\nCaused by:\n    {inner}\n"
  { exit := 1, err := s!"Error: {problem}\n" ++ context }

def helped : Outcome :=
  { exit := 0 }

def misused : Outcome :=
  { exit := 2 }

end Outcome

end PirTuning.Program
