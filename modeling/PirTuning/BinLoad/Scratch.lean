import PirTuning.BinLoad.Simulation

/-!
# Throws into a used array

The bins of a throw lie in an array that was used before.  It is emptied and gets its new
size, and then each draw is an index into it.  An index without a bin stops the throw, so a
throw that comes to something has stayed inside the array.
-/

namespace PirTuning.BinLoad

/-! ## One ball -/

def resize (loads : Array Nat) (size : Nat) : Array Nat :=
  loads.take size ++ Array.replicate (size - loads.size) 0

def addBall? (loads : Array Nat) (bin : Nat) : Option (Array Nat) :=
  if h : bin < loads.size then some (loads.set bin (loads[bin] + 1)) else none

@[simp] theorem resize_take_zero (scratch : Array Nat) (size : Nat) :
    resize (scratch.take 0) size = Array.replicate size 0 := by
  simp [resize]

theorem addBall?_eq_some_iff {loads loads' : Array Nat} {bin : Nat} :
    addBall? loads bin = some loads' ↔
      bin < loads.size ∧ loads' = loads.modify bin (· + 1) := by
  have set_eq_modify (inside : bin < loads.size) :
      loads.set bin (loads[bin] + 1) = loads.modify bin (· + 1) := by
    apply Array.ext
    · simp
    · intro v _ _
      rw [Array.getElem_set, Array.getElem_modify]
      split
      next same => simp [same]
      next => rfl
  unfold addBall?
  split
  next inside => simp [inside, set_eq_modify, eq_comm]
  next outside => simp [outside]

/-! ## All balls -/

variable {σ : Type} [WordSource σ]

def throwEach? (n : UInt64) : (balls : Nat) → (loads : Array Nat) → (source : σ) →
    Option (Throw σ)
  | 0, loads, source => some { loads := loads, source := source }
  | balls + 1, loads, source =>
    let (bin, source) := draw n source
    match addBall? loads bin.toNat with
    | none => none
    | some loads => throwEach? n balls loads source

def throwIn? (scratch : Array Nat) (bins balls : Nat) (source : σ) : Option (Throw σ) :=
  throwEach? (UInt64.ofNat bins) balls (resize (scratch.take 0) bins) source

/-- Each ball count finds in the array what the one before it has left there. -/
def trialLoadsIn? (bins : Nat) : (ballCounts : List Nat) → (scratch : Array Nat) → σ →
    Option (List Nat)
  | [], _, _ => some []
  | balls :: rest, scratch, source => do
    let thrown ← throwIn? scratch bins balls source
    let loads ← trialLoadsIn? bins rest thrown.loads thrown.source
    return thrown.maxLoad :: loads

end PirTuning.BinLoad
