/-!
# Words that check themselves

Arithmetic on 64-bit words that has a result only where the word is the number that it
stands for: a sum and a product have to fit, a difference must not be below zero, and a
quotient has to be exact.  An operation that goes wrong stops a computation with a `Fault`,
which names it and its operands.
-/

namespace PirTuning.Word

inductive Fault where
  | sum (a b : UInt64)
  | difference (a b : UInt64)
  | product (a b : UInt64)
  | quotient (a b : UInt64)
  | remainder (a b : UInt64)
  deriving Repr, DecidableEq

/-! ## Operations -/

def add (a b : UInt64) : Except Fault UInt64 :=
  if a.toNat + b.toNat < UInt64.size then .ok (a + b) else .error (.sum a b)

def sub (a b : UInt64) : Except Fault UInt64 :=
  if b ≤ a then .ok (a - b) else .error (.difference a b)

def mul (a b : UInt64) : Except Fault UInt64 :=
  if a.toNat * b.toNat < UInt64.size then .ok (a * b) else .error (.product a b)

def div (a b : UInt64) : Except Fault UInt64 :=
  if 0 < b ∧ a % b = 0 then .ok (a / b) else .error (.quotient a b)

def mod (a b : UInt64) : Except Fault UInt64 :=
  if 0 < b then .ok (a % b) else .error (.remainder a b)

def mulMod (modulus a b : UInt64) : Except Fault UInt64 := do
  let product ← mul a b
  mod product modulus

/-! ## Laws -/

theorem checked_eq_ok_iff {ε α : Type} {passes : Prop} [Decidable passes] {a b : α} {fault : ε} :
    (if passes then Except.ok a else .error fault) = .ok b ↔ passes ∧ a = b := by
  split
  next passed => simp [passed]
  next failed => simp [failed]

@[simp] theorem ok_bind {ε α β : Type} (a : α) (rest : α → Except ε β) :
    (Except.ok a >>= rest) = rest a :=
  rfl

theorem bind_eq_ok_iff {ε α β : Type} {first : Except ε α} {rest : α → Except ε β} {b : β} :
    (first >>= rest) = .ok b ↔ ∃ a, first = .ok a ∧ rest a = .ok b := by
  cases first <;> simp [bind, Except.bind]

theorem pos_iff {a : UInt64} : 0 < a ↔ 0 < a.toNat :=
  UInt64.lt_iff_toNat_lt

theorem toNat_shiftRight_one (a : UInt64) : (a >>> 1).toNat = a.toNat / 2 := by
  rw [UInt64.toNat_shiftRight, UInt64.toNat_one, Nat.shiftRight_eq_div_pow]

theorem shiftRight_one_lt {a : UInt64} (more : ¬ a = 0) : (a >>> 1).toNat < a.toNat := by
  rw [← UInt64.toNat_inj, UInt64.toNat_zero] at more
  rw [toNat_shiftRight_one]
  omega

theorem and_one_eq_one_iff {a : UInt64} : a &&& 1 = 1 ↔ a.toNat % 2 = 1 := by
  rw [← UInt64.toNat_inj, UInt64.toNat_and, UInt64.toNat_one, Nat.and_one_is_mod]

theorem add_eq_ok_iff {a b c : UInt64} : add a b = .ok c ↔ c.toNat = a.toNat + b.toNat := by
  rw [add, checked_eq_ok_iff, ← UInt64.toNat_inj, UInt64.toNat_add]
  have below := c.toNat_lt_size
  constructor
  · rintro ⟨fits, sum⟩
    rw [← sum, Nat.mod_eq_of_lt fits]
  · intro sum
    rw [← sum]
    exact ⟨below, Nat.mod_eq_of_lt below⟩

theorem sub_eq_ok_iff {a b c : UInt64} : sub a b = .ok c ↔ a.toNat = c.toNat + b.toNat := by
  rw [sub, checked_eq_ok_iff, UInt64.le_iff_toNat_le, ← UInt64.toNat_inj]
  constructor
  · rintro ⟨le, difference⟩
    rw [UInt64.toNat_sub_of_le _ _ (UInt64.le_iff_toNat_le.mpr le)] at difference
    omega
  · intro sum
    have le : b.toNat ≤ a.toNat := by omega
    refine ⟨le, ?_⟩
    rw [UInt64.toNat_sub_of_le _ _ (UInt64.le_iff_toNat_le.mpr le)]
    omega

theorem mul_eq_ok_iff {a b c : UInt64} : mul a b = .ok c ↔ c.toNat = a.toNat * b.toNat := by
  rw [mul, checked_eq_ok_iff, ← UInt64.toNat_inj, UInt64.toNat_mul]
  have below := c.toNat_lt_size
  constructor
  · rintro ⟨fits, product⟩
    rw [← product, Nat.mod_eq_of_lt fits]
  · intro product
    rw [← product]
    exact ⟨below, Nat.mod_eq_of_lt below⟩

theorem div_eq_ok_iff {a b c : UInt64} :
    div a b = .ok c ↔ 0 < b.toNat ∧ a.toNat = c.toNat * b.toNat := by
  rw [div, checked_eq_ok_iff, pos_iff, ← UInt64.toNat_inj, ← UInt64.toNat_inj, UInt64.toNat_mod,
    UInt64.toNat_div, UInt64.toNat_zero]
  constructor
  · rintro ⟨⟨pos, divides⟩, quotient⟩
    refine ⟨pos, ?_⟩
    rw [← quotient, Nat.div_mul_cancel (Nat.dvd_of_mod_eq_zero divides)]
  · rintro ⟨pos, product⟩
    rw [product]
    exact ⟨⟨pos, Nat.mul_mod_left _ _⟩, Nat.mul_div_cancel _ pos⟩

theorem mod_eq_ok_iff {a b c : UInt64} :
    mod a b = .ok c ↔ 0 < b.toNat ∧ c.toNat = a.toNat % b.toNat := by
  rw [mod, checked_eq_ok_iff, pos_iff, ← UInt64.toNat_inj, UInt64.toNat_mod, eq_comm]

theorem mulMod_eq_ok_iff {modulus a b c : UInt64} :
    mulMod modulus a b = .ok c ↔ a.toNat * b.toNat < UInt64.size ∧ 0 < modulus.toNat ∧
      c.toNat = a.toNat * b.toNat % modulus.toNat := by
  rw [mulMod, bind_eq_ok_iff]
  constructor
  · rintro ⟨product, ok, reduced⟩
    rw [mul_eq_ok_iff] at ok
    rw [mod_eq_ok_iff, ok] at reduced
    exact ⟨ok ▸ product.toNat_lt_size, reduced⟩
  · rintro ⟨fits, reduced⟩
    refine ⟨.ofNat (a.toNat * b.toNat), ?_, ?_⟩
    · rw [mul_eq_ok_iff, UInt64.toNat_ofNat_of_lt' fits]
    · rw [mod_eq_ok_iff, UInt64.toNat_ofNat_of_lt' fits]
      exact reduced

end PirTuning.Word
