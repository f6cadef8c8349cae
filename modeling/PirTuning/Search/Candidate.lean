import PirTuning.Walk

/-!
# Candidate generator sets

Only odd generators from 3 on are candidates: an even residue is no unit, and 1
moves nothing.  Pairs are `g < h`.  Triples are `f ≤ g < h`: a repeated first
generator keeps the pairs in the space of the triples.  All walks are in ascending
lexicographic order.
-/

namespace PirTuning.Search

def firstGenerator : Nat := 3

/-! ## Rows -/

def pairRows (modulus : Nat) : Walk Nat :=
  Walk.everyOther firstGenerator modulus

def innerValues (last modulus : Nat) : Walk Nat :=
  Walk.everyOther (last + 2) modulus

def tripleRows (modulus : Nat) : Walk (Nat × Nat) where
  first := if firstGenerator < modulus then some (firstGenerator, firstGenerator) else none
  next := fun (f, g) =>
    if g + 2 < modulus then some (f, g + 2)
    else if f + 2 < modulus then some (f + 2, f + 2)    -- the next first generator
    else none
  room := fun (f, g) => (modulus - f) * (modulus + 1) + (modulus - g)
  room_next := by
    rintro ⟨f, g⟩ b h
    simp only at h
    split at h
    · cases h
      simp only
      omega
    · split at h
      · cases h
        simp only
        have step : modulus - f = (modulus - (f + 2)) + 2 := by omega
        rw [step, Nat.add_mul]
        omega
      · cases h

/-! ## Sets -/

def pairCandidates (modulus : Nat) : Walk (Nat × Nat) where
  first :=
    if firstGenerator + 2 < modulus then some (firstGenerator, firstGenerator + 2) else none
  next := fun (g, h) =>
    if h + 2 < modulus then some (g, h + 2)
    else if g + 4 < modulus then some (g + 2, g + 4)    -- the next row
    else none
  room := fun (g, h) => (modulus - g) * (modulus + 1) + (modulus - h)
  room_next := by
    rintro ⟨g, h⟩ b step
    simp only at step
    split at step
    · cases step
      simp only
      omega
    · split at step
      · cases step
        simp only
        have lower : modulus - g = (modulus - (g + 2)) + 2 := by omega
        rw [lower, Nat.add_mul]
        omega
      · cases step

def tripleCandidates (modulus : Nat) : Walk (Nat × Nat × Nat) where
  first :=
    if firstGenerator + 2 < modulus then
      some (firstGenerator, firstGenerator, firstGenerator + 2)
    else none
  next := fun (f, g, h) =>
    if h + 2 < modulus then some (f, g, h + 2)
    else if g + 4 < modulus then some (f, g + 2, g + 4)         -- the next row
    else if f + 4 < modulus then some (f + 2, f + 2, f + 4)     -- the next first generator
    else none
  room := fun (f, g, h) =>
    ((modulus - f) * (modulus + 1) + (modulus - g)) * (modulus + 1) + (modulus - h)
  room_next := by
    rintro ⟨f, g, h⟩ b step
    simp only at step
    split at step
    · cases step
      simp only
      omega
    · split at step
      · cases step
        simp only
        have lower : (modulus - f) * (modulus + 1) + (modulus - g)
            = (modulus - f) * (modulus + 1) + (modulus - (g + 2)) + 2 := by omega
        rw [lower, Nat.add_mul _ 2]
        omega
      · split at step
        · cases step
          simp only
          have lower : (modulus - f) * (modulus + 1) + (modulus - g)
              = ((modulus - (f + 2)) * (modulus + 1) + (modulus - (f + 2)))
                + (2 * (modulus + 1) + (modulus - g) - (modulus - (f + 2))) := by
            have apart : modulus - f = (modulus - (f + 2)) + 2 := by omega
            rw [apart, Nat.add_mul]
            omega
          have gain : modulus + 1
              ≤ (2 * (modulus + 1) + (modulus - g) - (modulus - (f + 2))) * (modulus + 1) :=
            Nat.le_mul_of_pos_left _ (by omega)
          rw [lower, Nat.add_mul _ (2 * (modulus + 1) + (modulus - g) - (modulus - (f + 2)))]
          omega
        · cases step

/-! ## Shapes -/

inductive Arity where
  | pair
  | triple
  deriving Repr, DecidableEq

namespace Arity

def generatorSets (modulus : Nat) : Arity → List (List Nat)
  | .pair => (pairCandidates modulus).toList.map fun (g, h) => [g, h]
  | .triple => (tripleCandidates modulus).toList.map fun (f, g, h) => [f, g, h]

/-- The outermost generator is announced each time it is one more than a multiple
    of this number. -/
def progressInterval : Arity → Nat
  | .pair => 1000
  | .triple => 100

end Arity

end PirTuning.Search
