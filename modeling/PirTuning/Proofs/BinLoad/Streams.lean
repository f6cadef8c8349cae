import Mathlib.Algebra.BigOperators.Group.List.Basic
import Mathlib.Algebra.Group.Action.Defs
import Mathlib.Algebra.Order.BigOperators.Group.List
import Mathlib.Algebra.Order.Ring.Nat
import PirTuning.BinLoad.Scratch
import PirTuning.Proofs.BinLoad.Loads

/-!
# Throws of any stream of words

Whatever words a source yields, a draw stays below the number of bins.  The second word can
carry into the index, but the index that it carries into is never the last one: the product
of the largest word leaves as much room above it as there are bins.  So no throw leaves its
array, and the bins hold every ball that was thrown and nothing else.
-/

namespace PirTuning.BinLoad

/-! ## Indices -/

/-- High and low half of a product, put together. -/
theorem mulHigh_add_mul (word n : UInt64) :
    (mulHigh word n).toNat * UInt64.size + (word * n).toNat = word.toNat * n.toNat := by
  rw [toNat_mulHigh, UInt64.toNat_mul]
  exact Nat.div_add_mod' _ _

/-- There is no word whose product comes up to the next multiple of `UInt64.size`. -/
theorem product_add_le (word n : UInt64) :
    word.toNat * n.toNat + n.toNat ≤ n.toNat * UInt64.size := by
  rw [← Nat.succ_mul, Nat.mul_comm]
  exact Nat.mul_le_mul_left _ word.toNat_lt_size

section

variable {n : UInt64} (pos : 0 < n.toNat)

include pos

theorem mulHigh_lt (word : UInt64) : (mulHigh word n).toNat < n.toNat := by
  have halves := mulHigh_add_mul word n
  have room := product_add_le word n
  apply Nat.lt_of_mul_lt_mul_right (a := UInt64.size)
  omega

/-- Where a second word is asked for, the index of the first one is not the last. -/
theorem mulHigh_succ_lt {word : UInt64} (close : 0 - n < word * n) :
    (mulHigh word n).toNat + 1 < n.toNat := by
  have halves := mulHigh_add_mul word n
  have room := product_add_le word n
  have below := n.toNat_lt_size
  have top : (0 - n).toNat = UInt64.size - n.toNat := by
    rw [UInt64.toNat_sub, UInt64.toNat_zero, Nat.add_zero]
    exact Nat.mod_eq_of_lt (Nat.sub_lt (by decide) pos)
  rw [UInt64.lt_iff_toNat_lt, top] at close
  -- the low half alone takes up more than the room that is left above the last index
  apply Nat.lt_of_mul_lt_mul_right (a := UInt64.size)
  rw [Nat.succ_mul]
  omega

variable {σ : Type} [WordSource σ]

theorem draw_lt (source : σ) : (draw n source).1.toNat < n.toNat := by
  have first := mulHigh_lt pos (WordSource.next source).1
  unfold draw
  dsimp only
  split
  next close =>
    have carried := mulHigh_succ_lt pos close
    split
    · rw [UInt64.toNat_add, UInt64.toNat_one, Nat.mod_eq_of_lt (carried.trans n.toNat_lt)]
      exact carried
    · exact first
  next => exact first

theorem drawn_lt (balls : Nat) (source : σ) : ∀ v ∈ drawn n balls source, v < n.toNat := by
  induction balls generalizing source with
  | zero => simp [drawn]
  | succ balls ih => exact List.forall_mem_cons.mpr ⟨draw_lt pos source, ih _⟩

end

/-! ## Loads -/

/-- Bins that hold so many balls altogether. -/
structure Holds (bins balls : Nat) (loads : Array Nat) : Prop where
  size_eq : loads.size = bins
  sum_eq : loads.toList.sum = balls

namespace Holds

variable {bins balls : Nat} {loads : Array Nat}

theorem empty (bins : Nat) : Holds bins 0 (Array.replicate bins 0) where
  size_eq := Array.size_replicate
  sum_eq := by simp

theorem addBall (holds : Holds bins balls loads) {bin : Nat} (inside : bin < bins) :
    Holds bins (balls + 1) (loads.modify bin (· + 1)) where
  size_eq := by rw [Array.size_modify, holds.size_eq]
  sum_eq := by
    have lt : bin < loads.toList.length := by simpa [holds.size_eq] using inside
    have total : loads.toList.sum
        = (loads.toList.take bin).sum + (loads.toList[bin] + (loads.toList.drop (bin + 1)).sum) := by
      rw [← List.sum_cons, ← List.drop_eq_getElem_cons lt, List.sum_take_add_sum_drop]
    rw [← holds.sum_eq, total, Array.toList_modify, List.modify_eq_take_cons_drop lt,
      List.sum_append, List.sum_cons]
    omega

/-- Every ball stays in the bins, in whichever one it is counted. -/
theorem throwFrom {σ : Type} [WordSource σ] {n : UInt64} (pos : 0 < n.toNat)
    (holds : Holds n.toNat balls loads) (more : Nat) (source : σ) :
    Holds n.toNat (balls + more) (throwFrom n more loads source).loads := by
  induction more generalizing balls loads source with
  | zero => exact holds
  | succ more ih =>
    have rest := ih (holds.addBall (draw_lt pos source)) (draw n source).2
    rwa [Nat.add_right_comm] at rest

end Holds

/-- The fullest bin is one of the bins, if there is one. -/
theorem isGreatest_maxLoad {σ : Type} {thrown : Throw σ} (some_bin : 0 < thrown.loads.size) :
    IsGreatest {load | load ∈ thrown.loads} thrown.maxLoad := by
  have above : ∀ load ∈ thrown.loads, load ≤ thrown.maxLoad := maxLoad_le_iff.mp le_rfl
  refine ⟨?_, above⟩
  by_contra missed
  -- otherwise all bins would hold less, and so would the fullest one
  have below : ∀ load ∈ thrown.loads, load < thrown.maxLoad := fun load member =>
    lt_of_le_of_ne (above load member) fun same => missed (same ▸ member)
  have pos : 0 < thrown.maxLoad :=
    Nat.zero_lt_of_lt (below _ (Array.getElem_mem some_bin))
  have lower : thrown.maxLoad ≤ thrown.maxLoad - 1 :=
    maxLoad_le_iff.mpr fun load member => Nat.le_sub_one_of_lt (below load member)
  omega

/-- The fullest bin holds at least what it would if all bins held the same, and no more than
    there is. -/
theorem Holds.maxLoad_bounds {σ : Type} {bins balls : Nat} {thrown : Throw σ}
    (holds : Holds bins balls thrown.loads) (some_bin : 0 < bins) :
    (balls + bins - 1) / bins ≤ thrown.maxLoad ∧ thrown.maxLoad ≤ balls := by
  obtain ⟨size_eq, sum_eq⟩ := holds
  have some_load : 0 < thrown.loads.size := size_eq.symm ▸ some_bin
  have greatest := isGreatest_maxLoad some_load
  have members {load : Nat} : load ∈ thrown.loads.toList ↔ load ∈ thrown.loads :=
    Array.mem_toList_iff
  constructor
  · have even := List.sum_le_card_nsmul thrown.loads.toList thrown.maxLoad
      fun load member => greatest.2 (members.mp member)
    rw [sum_eq, Array.length_toList, size_eq, smul_eq_mul, Nat.mul_comm] at even
    apply Nat.le_of_lt_succ
    rw [Nat.div_lt_iff_lt_mul some_bin, Nat.succ_mul]
    omega
  · rw [← sum_eq]
    exact List.le_sum_of_mem (members.mpr greatest.1)

/-! ## Arrays that were used before -/

section

variable {σ : Type} [WordSource σ]

theorem throwEach?_eq {n : UInt64} (pos : 0 < n.toNat) (balls : Nat) {loads : Array Nat}
    (size_eq : loads.size = n.toNat) (source : σ) :
    throwEach? n balls loads source = some (throwFrom n balls loads source) := by
  induction balls generalizing loads source with
  | zero => rfl
  | succ balls ih =>
    have added : addBall? loads (draw n source).1.toNat
        = some (loads.modify (draw n source).1.toNat (· + 1)) :=
      addBall?_eq_some_iff.mpr ⟨size_eq.symm ▸ draw_lt pos source, rfl⟩
    have same_size : (loads.modify (draw n source).1.toNat (· + 1)).size = n.toNat := by
      rw [Array.size_modify, size_eq]
    simp only [throwEach?, added]
    exact ih same_size (draw n source).2

variable {bins : Nat} (some_bin : 0 < bins) (fits : bins < 2 ^ 64)

include some_bin fits

/-- What an array held before makes no difference to a throw. -/
theorem throwIn?_eq (scratch : Array Nat) (balls : Nat) (source : σ) :
    throwIn? scratch bins balls source = some (throwBalls bins balls source) := by
  have bins_eq : (UInt64.ofNat bins).toNat = bins := UInt64.toNat_ofNat_of_lt' fits
  rw [throwIn?, resize_take_zero]
  exact throwEach?_eq (by rwa [bins_eq]) balls (by rw [Array.size_replicate, bins_eq]) source

/-- A trial that goes through its ball counts with one array comes to the same loads as one
    that takes a new array for each. -/
theorem trialLoadsIn?_eq (ballCounts : List Nat) (scratch : Array Nat) (source : σ) :
    trialLoadsIn? bins ballCounts scratch source = some (trialLoads bins ballCounts source) := by
  induction ballCounts generalizing scratch source with
  | nil => rfl
  | cons balls rest ih =>
    simp only [trialLoadsIn?, throwIn?_eq some_bin fits, ih, trialLoads, Option.bind_eq_bind,
      Option.bind_some, Option.pure_def]

theorem throwBalls_holds (balls : Nat) (source : σ) :
    Holds bins balls (throwBalls bins balls source).loads := by
  have bins_eq : (UInt64.ofNat bins).toNat = bins := UInt64.toNat_ofNat_of_lt' fits
  have start := Holds.empty (UInt64.ofNat bins).toNat
  have thrown := start.throwFrom (by rwa [bins_eq]) balls source
  rwa [Nat.zero_add, bins_eq] at thrown

end

/-! ## Any stream -/

/-- What a throw does with the words of a source, whatever they are.  No index lies outside
    the bins.  So the throw comes to something, and to the same whatever its array held
    before: to a bin for each index that holds the balls that drew it, and a largest load
    between an equal share and all balls.  A power of two of bins takes one word for each
    ball and reads the bin off its top bits. -/
theorem throws_of_any_stream {σ : Type} [WordSource σ] {bins : Nat} (some_bin : 0 < bins)
    (fits : bins < 2 ^ 64) (balls : Nat) (source : σ) :
    (∀ v ∈ drawn (UInt64.ofNat bins) balls source, v < bins) ∧
    ∃ thrown : Throw σ,
      (∀ scratch, throwIn? scratch bins balls source = some thrown) ∧
      thrown.loads.size = bins ∧ thrown.loads.toList.sum = balls ∧
      (∀ v < bins,
        thrown.loads[v]? = some ((drawn (UInt64.ofNat bins) balls source).count v)) ∧
      IsGreatest {load | load ∈ thrown.loads} thrown.maxLoad ∧
      (balls + bins - 1) / bins ≤ thrown.maxLoad ∧ thrown.maxLoad ≤ balls ∧
      ∀ k, 1 ≤ k → bins = 2 ^ k →
        thrown.source = skip balls source ∧
        drawn (UInt64.ofNat bins) balls source
          = (List.range balls).map fun i => binOf k (wordAt source i) := by
  have bins_eq : (UInt64.ofNat bins).toNat = bins := UInt64.toNat_ofNat_of_lt' fits
  have holds := throwBalls_holds some_bin fits balls source
  have filled : 0 < (throwBalls bins balls source).loads.size := holds.size_eq.symm ▸ some_bin
  obtain ⟨share_le, le_balls⟩ := holds.maxLoad_bounds some_bin
  refine ⟨fun v member => ?_, throwBalls bins balls source,
    fun scratch => throwIn?_eq some_bin fits scratch balls source, holds.size_eq, holds.sum_eq,
    fun v inside => ?_, isGreatest_maxLoad filled, share_le, le_balls, ?_⟩
  · have inside := drawn_lt (bins_eq.symm ▸ some_bin) balls source v member
    rwa [bins_eq] at inside
  · rw [getElem?_loads_throwBalls, if_pos inside]
  · rintro k - rfl
    have lt : k < 64 := (Nat.pow_lt_pow_iff_right (Nat.lt_succ_self 1)).mp fits
    exact ⟨source_throwBalls_two_pow lt balls source, drawn_two_pow lt balls source⟩

/-- Two balls in three bins, where the first ball asks for a second word and is carried on by
    it, and two balls in four bins. -/
theorem throws_of_replayed_words :
    let third : Replay := ⟨#[6148914691236517205, 18446744073709551615, 0], 0⟩
    let edges : Replay := ⟨#[0, 18446744073709551615, 0], 0⟩
    (∃ thrown, (∀ scratch, throwIn? scratch 3 2 third = some thrown) ∧
      thrown.loads = #[1, 1, 0] ∧ 1 ≤ thrown.maxLoad ∧ thrown.maxLoad ≤ 2) ∧
    ∃ thrown, (∀ scratch, throwIn? scratch 4 2 edges = some thrown) ∧
      thrown.loads = #[1, 0, 0, 1] ∧ thrown.source = skip 2 edges := by
  intro third edges
  obtain ⟨-, thrown₃, same₃, -, -, -, -, share_le, le_balls, -⟩ :=
    throws_of_any_stream (by decide : 0 < 3) (by decide) 2 third
  obtain ⟨-, thrown₄, same₄, -, -, -, -, -, -, two_pow⟩ :=
    throws_of_any_stream (by decide : 0 < 4) (by decide) 2 edges
  have loads₃ : (throwIn? #[7, 7] 3 2 third).map Throw.loads = some #[1, 1, 0] := by
    decide +kernel
  have loads₄ : (throwIn? #[7, 7] 4 2 edges).map Throw.loads = some #[1, 0, 0, 1] := by
    decide +kernel
  rw [same₃, Option.map_some, Option.some_inj] at loads₃
  rw [same₄, Option.map_some, Option.some_inj] at loads₄
  exact ⟨⟨thrown₃, same₃, loads₃, share_le, le_balls⟩,
    thrown₄, same₄, loads₄, (two_pow 2 (by decide) rfl).1⟩

end PirTuning.BinLoad
