import PirTuning.Rotation.Evaluation
import PirTuning.Rotation.Registers
import PirTuning.Rotation.Witness

/-!
# Evaluations that check themselves

Evaluations and searches for witnesses once more, on machine words and with every operation
checked.  A product of residues has to fit into 62 bits, a running cost and each of its
partial sums into 61, an exponent has to lie inside its power table and a target inside its
record, the tables of a depth have to hold the powers up to that depth, and the exponents of
a split and the depths have to fit into 32-bit registers.  An operation that goes wrong stops
the run with a `Fault`, which says on what.
-/

namespace PirTuning.Rotation.Checked

inductive Fault where
  | product (a b : Nat)
  | cost (sum i depth : Nat)
  | exponent (exponent size : Nat)
  | tables (depth : Nat)
  | target (i size : Nat)
  | modulus (modulus : Nat)
  | register (cause : Registers.Overflow)
  deriving Repr, DecidableEq

/-! ## Arithmetic -/

def productLimit : Nat := 1 <<< 62

def costLimit : Nat := 1 <<< 61

def mul (modulus a b : Nat) : Except Fault Nat :=
  if a < modulus ∧ b < modulus ∧ a * b < productLimit then
    .ok (UInt64.ofNat a * UInt64.ofNat b % UInt64.ofNat modulus).toNat
  else
    .error (.product a b)

def addWeighted (sum i depth : Nat) : Except Fault Nat :=
  if i < 64 ∧ sum + depth <<< i < costLimit then
    .ok (UInt64.ofNat sum + (1 <<< UInt64.ofNat i) * UInt64.ofNat depth).toNat
  else
    .error (.cost sum i depth)

def addAllWeighted (t : Nat) (sum i : Nat) : List (Option Nat) → Except Fault Nat
  | [] => .ok sum
  | slot :: rest => do
    let sum ← addWeighted sum i (slot.getD t)
    addAllWeighted t sum (i + 1) rest

def increment (t : UInt32) : Except Fault UInt32 :=
  match Registers.add t 1 with
  | .ok t' => .ok t'
  | .error cause => .error (.register cause)

/-! ### What was computed -/

theorem toNat_product {modulus a b : Nat} (fits : modulus < UInt64.size) (a_lt : a < modulus)
    (b_lt : b < modulus) (product_lt : a * b < productLimit) :
    (UInt64.ofNat a * UInt64.ofNat b % UInt64.ofNat modulus).toNat = a * b % modulus := by
  rw [UInt64.toNat_mod, UInt64.toNat_mul, UInt64.toNat_ofNat_of_lt' fits,
    UInt64.toNat_ofNat_of_lt' (Nat.lt_trans a_lt fits),
    UInt64.toNat_ofNat_of_lt' (Nat.lt_trans b_lt fits),
    Nat.mod_eq_of_lt (Nat.lt_trans product_lt (by decide))]

theorem mul_eq_ok_iff {modulus a b c : Nat} (fits : modulus < UInt64.size) :
    mul modulus a b = .ok c ↔
      a < modulus ∧ b < modulus ∧ a * b < productLimit ∧ c = a * b % modulus := by
  rw [mul, Word.checked_eq_ok_iff]
  constructor
  · rintro ⟨⟨a_lt, b_lt, product_lt⟩, rfl⟩
    exact ⟨a_lt, b_lt, product_lt, toNat_product fits a_lt b_lt product_lt⟩
  · rintro ⟨a_lt, b_lt, product_lt, rfl⟩
    exact ⟨⟨a_lt, b_lt, product_lt⟩, toNat_product fits a_lt b_lt product_lt⟩

theorem toNat_weight {i : Nat} (i_lt : i < 64) : (1 <<< UInt64.ofNat i).toNat = 1 <<< i := by
  rw [UInt64.toNat_shiftLeft, UInt64.toNat_one,
    UInt64.toNat_ofNat_of_lt' (Nat.lt_trans i_lt (by decide)), Nat.mod_eq_of_lt i_lt,
    Nat.one_shiftLeft]
  exact Nat.mod_eq_of_lt (Nat.pow_lt_pow_right (by decide) i_lt)

theorem toNat_weighted {sum i depth : Nat} (i_lt : i < 64)
    (total_lt : sum + depth <<< i < costLimit) :
    (UInt64.ofNat sum + (1 <<< UInt64.ofNat i) * UInt64.ofNat depth).toNat
      = sum + depth <<< i := by
  have product : depth <<< i = 1 <<< i * depth := by
    rw [Nat.shiftLeft_eq, Nat.one_shiftLeft, Nat.mul_comm]
  have depth_le : depth ≤ 1 <<< i * depth :=
    Nat.le_mul_of_pos_left _ (by rw [Nat.one_shiftLeft]; exact Nat.two_pow_pos i)
  have fits : costLimit < UInt64.size := by decide
  rw [product] at total_lt ⊢
  rw [UInt64.toNat_add, UInt64.toNat_mul, toNat_weight i_lt,
    UInt64.toNat_ofNat_of_lt' (show sum < UInt64.size by omega),
    UInt64.toNat_ofNat_of_lt' (show depth < UInt64.size by omega),
    Nat.mod_eq_of_lt (show 1 <<< i * depth < UInt64.size by omega)]
  exact Nat.mod_eq_of_lt (Nat.lt_trans total_lt fits)

theorem addWeighted_eq_ok_iff {sum i depth total : Nat} :
    addWeighted sum i depth = .ok total ↔
      i < 64 ∧ total < costLimit ∧ total = sum + depth <<< i := by
  rw [addWeighted, Word.checked_eq_ok_iff]
  constructor
  · rintro ⟨⟨i_lt, total_lt⟩, rfl⟩
    rw [toNat_weighted i_lt total_lt]
    exact ⟨i_lt, total_lt, rfl⟩
  · rintro ⟨i_lt, total_lt, rfl⟩
    exact ⟨⟨i_lt, total_lt⟩, toNat_weighted i_lt total_lt⟩

theorem increment_eq_ok_iff {t t' : UInt32} : increment t = .ok t' ↔ t'.toNat = t.toNat + 1 := by
  rw [← UInt32.toNat_one, ← Registers.add_eq_ok_iff]
  unfold increment
  cases Registers.add t 1 <;> simp

theorem lt_of_increment {t t' : UInt32} (ok : increment t = .ok t') : t.toNat < t'.toNat := by
  have next := increment_eq_ok_iff.mp ok
  omega

/-! ## Power tables -/

def lookUp (table : PowerTable) (exponent : Nat) : Except Fault Nat :=
  match table.powers[exponent]? with
  | some power => .ok power
  | none => .error (.exponent exponent table.powers.size)

/-- Grow a table until it holds a power for each depth up to `depth`. -/
def extend (modulus depth : Nat) (table : PowerTable) : Except Fault PowerTable :=
  if table.powers.size ≤ depth then do
    let last ← lookUp table (table.powers.size - 1)
    let power ← mul modulus last table.generator
    extend modulus depth { table with powers := table.powers.push power }
  else
    .ok table
termination_by depth + 1 - table.powers.size
decreasing_by simp only [Array.size_push]; omega

/-- Whether the tables hold the powers of the generators with the exponents up to `t`, and
    nothing else. -/
def holdPowers (modulus t : Nat) (generators : List Nat) (tables : List PowerTable) : Bool :=
  tables.map (·.powers.toList)
    == generators.map fun g => (List.range (t + 1)).map fun e => g.pow e % modulus

/-! ## Splits in registers -/

def firstRow (n : Nat) (t : UInt32) : Vector UInt32 (n + 2) :=
  (Vector.replicate (n + 2) 0).set (n + 1) t (Nat.lt_succ_self (n + 1))

/-- Visit the splits from a row on, until a visit says that it is the last one.  The row
    after a row is made before the row is visited. -/
def scanRows {β : Type} {n : Nat} (visit : β → List Nat → Except Fault (Bool × β)) (b : β)
    (row : Vector UInt32 (n + 2)) : Except Fault β :=
  match _ : Registers.next row with
  | .error cause => .error (.register cause)
  | .ok row' =>
    match visit b (Registers.contents row), row' with
    | .error fault, _ => .error fault
    | .ok (true, b'), _ => .ok b'
    | .ok (false, b'), none => .ok b'
    | .ok (false, b'), some row' => scanRows visit b' row'
termination_by Split.room (Registers.contents row)
decreasing_by exact Split.room_next? (Registers.next?_of_next (by assumption))

/-! ## Evaluations -/

def numbers {n : Nat} (generators : Vector UInt64 (n + 2)) : List Nat :=
  generators.toList.map UInt64.toNat

def productOn (modulus acc : Nat) : List Nat → List PowerTable → Except Fault Nat
  | exponent :: split, table :: tables => do
    let power ← lookUp table exponent
    let acc ← mul modulus acc power
    productOn modulus acc split tables
  | _, _ => .ok acc

/-- Note the target that a split of `t` reaches, which has to be one of the record.  A visit
    that closes the last open target is the last one. -/
def visit (ring : SlotRing) (tables : List PowerTable) (t : Nat) (d : Discovery)
    (split : List Nat) : Except Fault (Bool × Discovery) := do
  let value ← productOn ring.modulus 1 split tables
  match ring.targetIndex? value with
  | none => return (false, d)
  | some i =>
    match d.record? i t with
    | none => throw (.target i d.size)
    | some (fresh, d') => return (fresh && d'.isComplete, d')

def layer (ring : SlotRing) (n : Nat) (tables : List PowerTable) (t : UInt32) (d : Discovery) :
    Except Fault Discovery :=
  scanRows (visit ring tables t.toNat) d (firstRow n t)

def runningCost (d : Discovery) (t : Nat) : Except Fault Nat :=
  addAllWeighted t 0 0 d.times

def runDepth (ring : SlotRing) {n : Nat} (generators : Vector UInt64 (n + 2)) (t : UInt32)
    (tables : List PowerTable) (d : Discovery) :
    Except Fault (List PowerTable × Discovery × Nat) := do
  let tables ← tables.mapM (extend ring.modulus t.toNat)
  if holdPowers ring.modulus t.toNat (numbers generators) tables then
    let reached ← layer ring n tables t d
    let bound ← runningCost reached t.toNat
    return (tables, reached, bound)
  else
    throw (.tables t.toNat)

def depthsFrom (ring : SlotRing) {n : Nat} (generators : Vector UInt64 (n + 2)) (ceiling : Nat)
    (t limit : UInt32) (tables : List PowerTable) (d : Discovery) : Except Fault Evaluation :=
  if t < limit then do
    let (tables, reached, bound) ← runDepth ring generators t tables d
    if ceiling ≤ bound then
      return .pruned t.toNat bound
    else
      match reached.toVector? with
      | some times => return .feasible bound times
      | none =>
        match _ : increment t with
        | .error fault => throw fault
        | .ok t' => depthsFrom ring generators ceiling t' limit tables reached
  else
    return .exhausted
termination_by limit.toNat - t.toNat
decreasing_by exact Nat.sub_lt_sub_left (by assumption) (lt_of_increment (by assumption))

/-- The modulus as a number of depths, cut off where a register ends. -/
def depthLimit (modulus : Nat) : UInt32 :=
  if modulus < UInt32.size then UInt32.ofNat modulus else UInt32.ofNat (UInt32.size - 1)

def evaluate (ring : SlotRing) {n : Nat} (generators : Vector UInt64 (n + 2)) (ceiling : Nat) :
    Except Fault Evaluation :=
  depthsFrom ring generators ceiling 0 (depthLimit ring.modulus)
    ((numbers generators).map (PowerTable.start ring.modulus)) (Discovery.empty ring.logN)

/-! ## Searches for witnesses -/

def powFrom (modulus result base exponent : Nat) : Except Fault Nat :=
  if exponent = 0 then
    .ok result
  else do
    let result ← if exponent % 2 = 1 then mul modulus result base else .ok result
    let base ← mul modulus base base
    powFrom modulus result base (exponent / 2)

/-- The power of `base`, modulo a number of at most 32 bits that is not zero. -/
def modPow (base exponent modulus : Nat) : Except Fault Nat :=
  if 0 < modulus ∧ modulus ≤ 4294967296 then
    powFrom modulus (1 % modulus) (base % modulus) exponent
  else
    .error (.modulus modulus)

def witnessProductOn (modulus acc : Nat) : List Nat → List Nat → Except Fault Nat
  | generator :: generators, exponent :: split => do
    let power ← modPow generator exponent modulus
    let acc ← mul modulus acc power
    witnessProductOn modulus acc generators split
  | _, _ => .ok acc

/-- Try a split.  One whose product is the target is the last one to be tried. -/
def tryWitness (modulus : Nat) (generators : List Nat) (target : Nat)
    (found : Option (List Nat)) (split : List Nat) : Except Fault (Bool × Option (List Nat)) := do
  let value ← witnessProductOn modulus (1 % modulus) generators split
  return if value == target then (true, some split) else (false, found)

def earliestFrom? (modulus : Nat) {n : Nat} (generators : Vector UInt64 (n + 2)) (target : Nat)
    (t limit : UInt32) : Except Fault (Option Witness) :=
  if t < limit then do
    let found ← scanRows (tryWitness modulus (numbers generators) target) none (firstRow n t)
    match found with
    | some split => return some { depth := t.toNat, split := split }
    | none =>
      match _ : increment t with
      | .error fault => throw fault
      | .ok t' => earliestFrom? modulus generators target t' limit
  else
    return none
termination_by limit.toNat - t.toNat
decreasing_by exact Nat.sub_lt_sub_left (by assumption) (lt_of_increment (by assumption))

def earliestWitness? (ring : SlotRing) {n : Nat} (generators : Vector UInt64 (n + 2))
    (index : Nat) (limit : UInt32) : Except Fault (Option Witness) :=
  match ring.targets[index]? with
  | none => .ok none
  | some target => earliestFrom? ring.modulus generators target 0 limit

end PirTuning.Rotation.Checked
