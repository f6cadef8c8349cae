import PirTuning.BinLoad.Draw

/-!
# Loads of bins

Balls are thrown one by one, each into the bin whose index is drawn for it.
-/

namespace PirTuning.BinLoad

/-- Bins after balls were thrown, and what is left of the words. -/
structure Throw (σ : Type) where
  loads : Array Nat
  source : σ
  deriving Repr

def Throw.maxLoad {σ : Type} (t : Throw σ) : Nat :=
  t.loads.foldl max 0

@[specialize] def throwFrom {σ : Type} [WordSource σ] (n : UInt64) :
    (balls : Nat) → (loads : Array Nat) → (source : σ) → Throw σ
  | 0, loads, source => { loads := loads, source := source }
  | balls + 1, loads, source =>
    let (bin, source) := draw n source
    throwFrom n balls (loads.modify bin.toNat (· + 1)) source

@[inline] def throwBalls {σ : Type} [WordSource σ] (bins balls : Nat) (source : σ) : Throw σ :=
  throwFrom (UInt64.ofNat bins) balls (Array.replicate bins 0) source

/-- There has to be a bin for the first ball. -/
@[inline] def throwBalls? {σ : Type} [WordSource σ] (bins balls : Nat) (source : σ) :
    Option (Throw σ) :=
  if bins = 0 ∧ balls ≠ 0 then none else some (throwBalls bins balls source)

end PirTuning.BinLoad
