/-!
# Schemes whose bins are sized

A retrieval scheme spreads its database over bins of equal size, so it has to
know how full the fullest bin can get.  The schemes differ in the number of bins.
-/

namespace PirTuning.BinLoad

inductive Scheme where
  | rlwe
  | paillier
  deriving Repr, DecidableEq

inductive SchemeError where
  | unknown (name : String)
  deriving Repr, DecidableEq

def SchemeError.message : SchemeError → String
  | .unknown name => s!"can only compute bin loads for rlwe or paillier, got '{name}'"

namespace Scheme

def bins : Scheme → Nat
  | .rlwe => 4096
  | .paillier => 256

def name : Scheme → String
  | .rlwe => "rlwe"
  | .paillier => "paillier"

def ofName (name : String) : Except SchemeError Scheme :=
  if name = "rlwe" then .ok .rlwe
  else if name = "paillier" then .ok .paillier
  else .error (.unknown name)

def checkpointFile (scheme : Scheme) : String :=
  s!"simulation-{scheme.name}.csv"

end Scheme

/-! ## Defaults -/

/-- How many ball counts are simulated side by side. -/
def ballCountsPerRun : Nat := 24

def ballStep : Nat := 8192

def defaultBallCounts : List Nat :=
  (List.range ballCountsPerRun).map fun k => (k + 1) * ballStep

def defaultRuns : Nat := 1 <<< 30

end PirTuning.BinLoad
