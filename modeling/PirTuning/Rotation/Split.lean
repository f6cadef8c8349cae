import PirTuning.Walk
import PirTuning.Word

/-!
# Exponent splits

A split of depth `t` across `k` generators is a list of `k` exponents that add
up to `t`.  Splits are walked in ascending lexicographic order, so the first
split that has a property is also the smallest one.
-/

namespace PirTuning.Rotation.Split

/-! ## Successors -/

def depth : List Nat → Nat
  | [] => 0
  | e :: rest => e + depth rest

/-- The smallest split: all of the depth in the last of `k` places. -/
def first : Nat → Nat → List Nat
  | 0, _ => []
  | 1, t => [t]
  | k + 2, t => 0 :: first (k + 1) t

/-- The next split of the same depth.  The tail is stepped while it can be;
    after its last split the head takes one unit from it, and the tail starts
    over with what is left. -/
def next? : List Nat → Option (List Nat)
  | [] => none
  | a :: rest =>
    match next? rest with
    | some rest' => some (a :: rest')
    | none =>
      match depth rest with
      | 0 => none  -- nothing is left to take
      | s + 1 => some ((a + 1) :: first rest.length s)

@[simp] theorem depth_nil : depth [] = 0 := rfl
@[simp] theorem depth_cons (e : Nat) (rest : List Nat) : depth (e :: rest) = e + depth rest := rfl

@[simp] theorem length_first (k t : Nat) : (first k t).length = k := by
  fun_induction first k t with
  | case1 => rfl
  | case2 => rfl
  | case3 k t ih => simp [ih]

theorem depth_first_succ (k t : Nat) : depth (first (k + 1) t) = t := by
  induction k with
  | zero => simp [first]
  | succ k ih => simp [first, ih]

theorem depth_first_le (k t : Nat) : depth (first k t) ≤ t := by
  cases k with
  | zero => simp [first]
  | succ k => exact Nat.le_of_eq (depth_first_succ k t)

theorem length_next? {split split' : List Nat} (h : next? split = some split') :
    split'.length = split.length := by
  fun_induction next? split generalizing split' with
  | case1 => cases h
  | case2 a rest rest' found ih => cases h; simp [ih found]
  | case3 => cases h
  | case4 a rest _ s _ _ => cases h; simp

theorem depth_next? {split split' : List Nat} (h : next? split = some split') :
    depth split' = depth split := by
  fun_induction next? split generalizing split' with
  | case1 => cases h
  | case2 a rest rest' found ih => cases h; simp [ih found]
  | case3 => cases h
  | case4 a rest none_left s depth_eq _ =>
    cases h
    cases rest with
    | nil => simp at depth_eq
    | cons b rest =>
      rw [depth_cons, List.length_cons, depth_first_succ, depth_cons, depth_eq]
      omega

/-! ## Room

Each place counts for what is to its right; the bound below makes taking one
unit from the right of a place outweigh whatever starts over there. -/

def room : List Nat → Nat
  | [] => 0
  | _ :: rest => depth rest * (depth rest + 1).pow rest.length + room rest

theorem room_lt (split : List Nat) : room split < (depth split + 1).pow split.length := by
  induction split with
  | nil => exact Nat.one_pos
  | cons a rest ih =>
    have widen : (depth rest + 1).pow (rest.length + 1)
        ≤ (a + depth rest + 1).pow (rest.length + 1) :=
      Nat.pow_le_pow_left (by omega) _
    have spread : (depth rest + 1).pow (rest.length + 1)
        = depth rest * (depth rest + 1).pow rest.length + (depth rest + 1).pow rest.length := by
      rw [Nat.mul_comm (depth rest)]
      exact Nat.mul_succ _ _
    simp only [room, depth_cons, List.length_cons]
    omega

theorem room_next? {split split' : List Nat} (h : next? split = some split') :
    room split' < room split := by
  fun_induction next? split generalizing split' with
  | case1 => cases h
  | case2 a rest rest' found ih =>
    cases h
    simpa [room, depth_next? found, length_next? found] using ih found
  | case3 => cases h
  | case4 a rest none_left s depth_eq _ =>
    cases h
    -- the unit that the tail loses outweighs the room in which it starts over
    have below := room_lt (first rest.length s)
    have small := depth_first_le rest.length s
    rw [length_first] at below
    have raise : (depth (first rest.length s) + 1).pow rest.length ≤ (s + 1).pow rest.length :=
      Nat.pow_le_pow_left (by omega) _
    have higher : (s + 1).pow rest.length ≤ (s + 1 + 1).pow rest.length :=
      Nat.pow_le_pow_left (by omega) _
    have taken : depth (first rest.length s) * (depth (first rest.length s) + 1).pow rest.length
        ≤ s * (s + 1 + 1).pow rest.length :=
      Nat.mul_le_mul small (Nat.le_trans raise higher)
    have kept : (s + 1) * (s + 1 + 1).pow rest.length
        = s * (s + 1 + 1).pow rest.length + (s + 1 + 1).pow rest.length := by
      rw [Nat.add_mul, Nat.one_mul]
    simp only [room, length_first, depth_eq, Nat.succ_eq_add_one]
    omega

/-! ## The walk -/

def walk (k t : Nat) : Walk (List Nat) where
  first := some (first k t)
  next := next?
  room := room
  room_next := room_next?

/-- Across fewer than two places there is nothing to split. -/
def walk? (k t : Nat) : Option (Walk (List Nat)) :=
  if 2 ≤ k then some (walk k t) else none

/-! ## Nested loops -/

/-- Every split of `t` across `k` places, as nested loops over the leading
    exponents: the last place takes what the others leave. -/
def all : Nat → Nat → List (List Nat)
  | 0, 0 => [[]]
  | 0, _ + 1 => []
  | 1, t => [[t]]
  | k + 2, t => (List.range (t + 1)).flatMap fun e => (all (k + 1) (t - e)).map (e :: ·)

/-! ## Counting -/

def countStep? (n acc : UInt64) (i : Nat) : Except Word.Fault UInt64 := do
  let factor ← Word.sub n (UInt64.ofNat i)
  let product ← Word.mul acc factor
  let place ← Word.add (UInt64.ofNat i) 1
  Word.div product place

/-- Number of splits of `t` across `k` places: `t + k - 1` choose `k - 1`, in words.  A product
    is larger than the number that it leads to, and the count stops at one that does not fit. -/
def count? (k : Nat) (t : UInt32) : Except Word.Fault UInt64 := do
  let places ← Word.add t.toUInt64 (UInt64.ofNat k)
  let n ← Word.sub places 1
  let factors ← Word.sub (UInt64.ofNat k) 1
  (List.range factors.toNat).foldlM (countStep? n) 1

end PirTuning.Rotation.Split
