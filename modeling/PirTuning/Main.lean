import PirTuning.Program.Estimator
import PirTuning.Program.Tuner

/-!
# Command line

The two programs of the library under one roof: the first argument picks the
program, the others are its own.
-/

namespace PirTuning

open PirTuning.Checkpoint (Row Failure)
open PirTuning.Program (Outcome)

/-- The reason that the operating system gives for a failure. -/
def failureOf? : IO.Error → Option Failure
  | .noFileOrDirectory _ number description => some ⟨number.toNat, description⟩
  | .permissionDenied _ number description => some ⟨number.toNat, description⟩
  | .inappropriateType _ number description => some ⟨number.toNat, description⟩
  | .resourceExhausted _ number description => some ⟨number.toNat, description⟩
  | .invalidArgument _ number description => some ⟨number.toNat, description⟩
  | _ => none

def saveToDisk (path : String) (rows : List Row) : IO (Except Failure Unit) := do
  try
    let handle ← IO.FS.Handle.mk path IO.FS.Mode.append
    handle.putStr (Checkpoint.renderRows rows)
    handle.flush
    pure (.ok ())
  catch cause =>
    match failureOf? cause with
    | some failure => pure (.error failure)
    | none => throw cause

def systemSeed : IO UInt64 := do
  let bytes ← IO.getRandomBytes 8
  pure (bytes.foldl (fun seed byte => seed * 256 + byte.toUInt64) 0)

/-- Run the program that was picked, with one worker. -/
def runProgram : List String → IO Outcome
  | "search" :: words => pure (Program.Tuner.run (.one Search.searchRing) words)
  | "binload" :: words =>
    let seeded := BinLoad.Xoshiro.ofSeed
    Program.Estimator.run (.one (Program.Estimator.runAlone seeded)) seeded saveToDisk systemSeed
      words
  | _ => pure .misused

end PirTuning

def main (words : List String) : IO UInt32 := do
  let outcome ← PirTuning.runProgram words
  IO.print outcome.out
  IO.eprint outcome.err
  pure (UInt32.ofNat outcome.exit)
