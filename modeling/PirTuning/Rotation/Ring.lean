/-!
# Slot rings and their required rotations

A ring with `n = 2 ^ logN` slots has its rotations indexed by the units modulo
`2 * n`.  Rotating by every power of two is enough to rotate by anything, so
those are the required rotations: target `i` is `1 + n / 2 ^ i`, and reaching it
late costs `2 ^ i` per unit of depth.
-/

namespace PirTuning.Rotation

/-- The largest supported `logN`: with it the product of two reduced residues
    still fits into 62 bits. -/
def maxLogN : Nat := 30

def defaultLogN : Nat := 12

/-! ## Errors -/

inductive RingError where
  | invalidLogN (logN : Nat)
  deriving Repr, DecidableEq

def RingError.message : RingError → String
  | .invalidLogN logN => s!"log_n must be in 1..={maxLogN}, got {logN}"

/-! ## Rings -/

structure SlotRing where
  logN : Nat
  logN_pos : 1 ≤ logN
  logN_le : logN ≤ maxLogN
  deriving Repr, DecidableEq

namespace SlotRing

def ofLogN (logN : Nat) : Except RingError SlotRing :=
  if h : 1 ≤ logN ∧ logN ≤ maxLogN then
    .ok { logN := logN, logN_pos := h.1, logN_le := h.2 }
  else
    .error (.invalidLogN logN)

theorem ofLogN_eq_ok_iff {logN : Nat} {ring : SlotRing} :
    ofLogN logN = .ok ring ↔ ring.logN = logN := by
  obtain ⟨size, pos, le⟩ := ring
  unfold ofLogN
  split
  · simp [eq_comm]
  · rename_i h
    constructor
    · intro contra
      cases contra
    · intro same
      subst same
      exact absurd ⟨pos, le⟩ h

def slots (ring : SlotRing) : Nat :=
  1 <<< ring.logN

def modulus (ring : SlotRing) : Nat :=
  2 * ring.slots

def target (ring : SlotRing) (i : Nat) : Nat :=
  (1 + ring.slots >>> i) % ring.modulus

/-- The rotations that a generator set has to reach, in index order. -/
def targets (ring : SlotRing) : List Nat :=
  (List.range ring.logN).map ring.target

/-- The targets differ, so a value has at most one index. -/
def targetIndex? (ring : SlotRing) (value : Nat) : Option Nat :=
  ring.targets.idxOf? value

/-- Cost of target `i` per unit of depth. -/
def weight (_ : SlotRing) (i : Nat) : Nat :=
  1 <<< i

def mul (ring : SlotRing) (a b : Nat) : Nat :=
  a * b % ring.modulus

@[simp] theorem length_targets (ring : SlotRing) : ring.targets.length = ring.logN := by
  simp [targets]

theorem modulus_pos (ring : SlotRing) : 0 < ring.modulus := by
  rw [modulus, slots, Nat.one_shiftLeft]
  exact Nat.mul_pos Nat.two_pos (Nat.two_pow_pos _)

end SlotRing

end PirTuning.Rotation
