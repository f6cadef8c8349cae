import PirTuning.BinLoad.Source

/-!
# Drawing an index

A word is turned into an index below `n` by multiplying it by `n` and keeping the
high half of the product.  Where the low half leaves room for a carry, a second
word decides whether there is one.  That is how `rand` 0.9 samples an index of 64 bits.
-/

namespace PirTuning.BinLoad

/-! ## High half of a product -/

@[inline] def mulHigh (a b : UInt64) : UInt64 :=
  let aLow := a % 4294967296
  let aHigh := a / 4294967296
  let bLow := b % 4294967296
  let bHigh := b / 4294967296
  let middle := aHigh * bLow + aLow * bLow / 4294967296
  let middle' := aLow * bHigh + middle % 4294967296
  aHigh * bHigh + middle / 4294967296 + middle' / 4294967296

/-- Two-digit numbers in base `r`. -/
theorem schoolbook (r a1 a0 b1 b0 : Nat) (hr : 0 < r) :
    (r * a1 + a0) * (r * b1 + b0) / (r * r)
      = a1 * b1 + (a1 * b0 + a0 * b0 / r) / r
        + (a0 * b1 + (a1 * b0 + a0 * b0 / r) % r) / r := by
  have expand : (r * a1 + a0) * (r * b1 + b0)
      = r * (r * (a1 * b1) + a1 * b0 + a0 * b1) + a0 * b0 := by
    simp only [Nat.mul_add, Nat.add_mul, Nat.mul_assoc, Nat.mul_left_comm]
    omega
  rw [expand, ← Nat.div_div_eq_div_mul, Nat.mul_add_div hr]
  have middle := Nat.div_add_mod (a1 * b0 + a0 * b0 / r) r
  have regroup : r * (a1 * b1) + a1 * b0 + a0 * b1 + a0 * b0 / r
      = r * (a1 * b1 + (a1 * b0 + a0 * b0 / r) / r)
        + (a0 * b1 + (a1 * b0 + a0 * b0 / r) % r) := by
    rw [Nat.mul_add]
    omega
  rw [regroup, Nat.mul_add_div hr]

theorem half_product_lt {x y : Nat} (hx : x < 4294967296) (hy : y < 4294967296) :
    x * y ≤ 18446744065119617025 := by
  have := Nat.mul_le_mul (Nat.le_sub_one_of_lt hx) (Nat.le_sub_one_of_lt hy)
  simpa using this

theorem toNat_mulHigh (a b : UInt64) :
    (mulHigh a b).toNat = a.toNat * b.toNat / UInt64.size := by
  have ha := a.toNat_lt
  have hb := b.toNat_lt
  have a1 : a.toNat / 4294967296 < 4294967296 := by omega
  have b1 : b.toNat / 4294967296 < 4294967296 := by omega
  have a0 : a.toNat % 4294967296 < 4294967296 := Nat.mod_lt _ (by decide)
  have b0 : b.toNat % 4294967296 < 4294967296 := Nat.mod_lt _ (by decide)
  have whole := schoolbook 4294967296 (a.toNat / 4294967296) (a.toNat % 4294967296)
    (b.toNat / 4294967296) (b.toNat % 4294967296) (by decide)
  rw [Nat.div_add_mod, Nat.div_add_mod] at whole
  have p11 := half_product_lt a1 b1
  have p10 := half_product_lt a1 b0
  have p01 := half_product_lt a0 b1
  have p00 := half_product_lt a0 b0
  have square : UInt64.size = 4294967296 * 4294967296 := by decide
  rw [square, whole]
  simp only [mulHigh, UInt64.toNat_add, UInt64.toNat_mul, UInt64.toNat_div, UInt64.toNat_mod,
    UInt64.reduceToNat]
  -- what is left is linear in the four products of halves
  generalize a.toNat / 4294967296 * (b.toNat / 4294967296) = m11 at *
  generalize a.toNat / 4294967296 * (b.toNat % 4294967296) = m10 at *
  generalize a.toNat % 4294967296 * (b.toNat / 4294967296) = m01 at *
  generalize a.toNat % 4294967296 * (b.toNat % 4294967296) = m00 at *
  omega

/-! ## Indices -/

/-- There is an index below `n` only if `n` is not `0`. -/
@[inline] def draw {σ : Type} [WordSource σ] (n : UInt64) (source : σ) : UInt64 × σ :=
  let (word, source) := WordSource.next source
  let high := mulHigh word n
  let low := word * n
  -- only this close to the top can the fraction of a second word carry over
  if 0 - n < low then
    let (word', source) := WordSource.next source
    let carry := mulHigh word' n
    if low + carry < low then (high + 1, source) else (high, source)
  else (high, source)

end PirTuning.BinLoad
