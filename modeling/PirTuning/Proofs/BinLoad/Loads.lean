import Mathlib.Data.Finset.Lattice.Fold
import Mathlib.Order.Lattice.Nat
import PirTuning.BinLoad.MaxLoad
import PirTuning.Proofs.BinLoad.Draws

/-!
# Loads as counts

A bin holds as many balls as draws came up with it, so the fullest bin holds as many as
the most frequent draw came up.  Among a power of two of bins the draws are the bins of
consecutive words.
-/

namespace PirTuning.BinLoad

/-! ## The most frequent value -/

/-- How often the most frequent value of a list comes up. -/
def peak (values : List Nat) : Nat :=
  values.toFinset.sup values.count

theorem peak_le_iff {values : List Nat} {bound : Nat} :
    peak values ≤ bound ↔ ∀ v, values.count v ≤ bound := by
  simp only [peak, Finset.sup_le_iff, List.mem_toFinset]
  constructor
  · intro le v
    by_cases member : v ∈ values
    · exact le v member
    · rw [List.count_eq_zero_of_not_mem member]
      exact Nat.zero_le bound
  · intro le v _
    exact le v

/-! ## Throws -/

theorem maxLoad_le_iff {σ : Type} {thrown : Throw σ} {bound : Nat} :
    thrown.maxLoad ≤ bound ↔ ∀ load ∈ thrown.loads, load ≤ bound := by
  have foldl_le_iff : ∀ (loads : List Nat) (start : Nat),
      loads.foldl max start ≤ bound ↔ start ≤ bound ∧ ∀ load ∈ loads, load ≤ bound := by
    intro loads
    induction loads with
    | nil => simp
    | cons load loads ih => simp [ih, and_assoc]
  rw [Throw.maxLoad, ← Array.foldl_toList, foldl_le_iff]
  simp

variable {σ : Type} [WordSource σ]

/-- The bins that some balls are thrown into, in order. -/
def drawn (n : UInt64) : (balls : Nat) → σ → List Nat
  | 0, _ => []
  | balls + 1, source => (draw n source).1.toNat :: drawn n balls (draw n source).2

/-- A throw adds to each bin the number of draws that came up with it. -/
theorem getElem?_loads_throwFrom (n : UInt64) (balls : Nat) (loads : Array Nat) (source : σ)
    (v : Nat) :
    (throwFrom n balls loads source).loads[v]?
      = loads[v]?.map (· + (drawn n balls source).count v) := by
  induction balls generalizing loads source with
  | zero => simp [throwFrom, drawn]
  | succ balls ih =>
    have rest := ih (loads.modify (draw n source).1.toNat (· + 1)) (draw n source).2
    refine rest.trans ?_
    rw [Array.getElem?_modify, drawn, List.count_cons]
    by_cases hit : (draw n source).1.toNat = v
    · subst hit
      cases loads[(draw n source).1.toNat]? <;> simp [Nat.add_assoc, Nat.add_comm 1]
    · simp [hit]

theorem getElem?_loads_throwBalls (bins balls : Nat) (source : σ) (v : Nat) :
    (throwBalls bins balls source).loads[v]?
      = if v < bins then some ((drawn (UInt64.ofNat bins) balls source).count v) else none := by
  rw [throwBalls, getElem?_loads_throwFrom, Array.getElem?_replicate]
  split <;> simp

/-- The fullest bin is the one that was drawn most often. -/
theorem maxLoad_throwBalls {bins balls : Nat} {source : σ}
    (inside : ∀ v ∈ drawn (UInt64.ofNat bins) balls source, v < bins) :
    (throwBalls bins balls source).maxLoad = peak (drawn (UInt64.ofNat bins) balls source) := by
  -- two numbers are the same if they have the same upper bounds
  apply eq_of_forall_ge_iff
  intro bound
  have loads := getElem?_loads_throwBalls bins balls source
  rw [maxLoad_le_iff, peak_le_iff]
  constructor
  · intro le v
    by_cases lt : v < bins
    · exact le _ (Array.mem_of_getElem? ((loads v).trans (if_pos lt)))
    · rw [List.count_eq_zero_of_not_mem fun member => lt (inside v member)]
      exact Nat.zero_le bound
  · intro le load member
    obtain ⟨v, found⟩ := Array.mem_iff_getElem?.mp member
    rw [loads] at found
    obtain ⟨-, same⟩ := Option.ite_none_right_eq_some.mp found
    obtain rfl := Option.some.inj same
    exact le v

/-! ## A power of two of bins -/

section

variable {k : Nat} (lt : k < 64)

include lt

theorem drawn_two_pow (balls : Nat) (source : σ) :
    drawn (UInt64.ofNat (2 ^ k)) balls source
      = (List.range balls).map fun i => binOf k (wordAt source i) := by
  induction balls generalizing source with
  | zero => rfl
  | succ balls ih =>
    -- the first ball takes one word, and the others those behind it
    have later (i : Nat) : wordAt (skip 1 source) i = wordAt source (i + 1) := by
      rw [wordAt_skip, Nat.add_comm]
    rw [drawn, draw_two_pow lt, toNat_mulHigh_two_pow lt, ih, List.range_succ_eq_map,
      List.map_cons, List.map_map]
    simp only [later, Function.comp_def, Nat.succ_eq_add_one]

theorem source_throwFrom_two_pow (balls : Nat) (loads : Array Nat) (source : σ) :
    (throwFrom (UInt64.ofNat (2 ^ k)) balls loads source).source = skip balls source := by
  induction balls generalizing loads source with
  | zero => rfl
  | succ balls ih =>
    have rest := ih (loads.modify (draw (UInt64.ofNat (2 ^ k)) source).1.toNat (· + 1))
      (draw (UInt64.ofNat (2 ^ k)) source).2
    refine rest.trans ?_
    rw [draw_two_pow lt, skip_skip, Nat.add_comm]

theorem source_throwBalls_two_pow (balls : Nat) (source : σ) :
    (throwBalls (2 ^ k) balls source).source = skip balls source :=
  source_throwFrom_two_pow lt balls _ source

theorem maxLoad_throwBalls_two_pow (balls : Nat) (source : σ) :
    (throwBalls (2 ^ k) balls source).maxLoad
      = peak ((List.range balls).map fun i => binOf k (wordAt source i)) := by
  rw [← drawn_two_pow lt]
  apply maxLoad_throwBalls
  intro v member
  rw [drawn_two_pow lt, List.mem_map] at member
  obtain ⟨i, -, rfl⟩ := member
  exact binOf_lt (Nat.le_of_lt lt) _

end

end PirTuning.BinLoad
