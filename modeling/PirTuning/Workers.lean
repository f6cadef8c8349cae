/-!
# Workers

Work that is shared among several workers depends on how they take turns.  What it comes to
then is a parameter; one worker on its own does it in order.
-/

namespace PirTuning

/-- `size` is the number of workers that there are when nobody asks for a number of them. -/
structure Workers (α : Type) where
  size : Nat
  shared : (count : Nat) → α

namespace Workers

variable {α : Type}

/-- Zero leaves the choice open, too. -/
def count (workers : Workers α) : (threads : Option Nat) → Nat
  | none => workers.size
  | some 0 => workers.size
  | some (more + 1) => more + 1

@[inline] def run (workers : Workers α) (threads : Option Nat) (alone : α) : α :=
  if workers.count threads = 1 then alone else workers.shared (workers.count threads)

@[inline] def one (alone : α) : Workers α where
  size := 1
  shared _ := alone

theorem run_of_one {workers : Workers α} {threads : Option Nat}
    (one_worker : workers.count threads = 1) (alone : α) : workers.run threads alone = alone :=
  if_pos one_worker

end Workers

end PirTuning
