/-!
# Sources of random words

Where the words that balls are thrown with come from is a parameter.  The programs take the
small generator of the random library `rand`, version 0.9, as it is on machines of 64 bits:
xoshiro256++, seeded through splitmix64.  That `Xoshiro` yields its words is an assumption.
-/

namespace PirTuning.BinLoad

class WordSource (σ : Type) where
  next : σ → UInt64 × σ

/-- The generators of the trials of a run, whatever the random library makes of a seed. -/
structure Seeds (γ : Type) where
  seeded : UInt64 → γ
  first : UInt64

@[inline] def Seeds.source {γ : Type} (seeds : Seeds γ) (r : Nat) : γ :=
  seeds.seeded (seeds.first + UInt64.ofNat r)

/-! ## A seeded generator -/

structure Xoshiro where
  s0 : UInt64
  s1 : UInt64
  s2 : UInt64
  s3 : UInt64
  deriving Repr, DecidableEq

namespace Xoshiro

@[inline] def rotateLeft (w bits : UInt64) : UInt64 :=
  (w <<< bits) ||| (w >>> (64 - bits))

def seedStep : UInt64 := 0x9e3779b97f4a7c15

def scramble (z : UInt64) : UInt64 :=
  let z := (z ^^^ (z >>> 30)) * 0xbf58476d1ce4e5b9
  let z := (z ^^^ (z >>> 27)) * 0x94d049bb133111eb
  z ^^^ (z >>> 31)

def ofSeed (seed : UInt64) : Xoshiro :=
  { s0 := scramble (seed + seedStep)
    s1 := scramble (seed + seedStep + seedStep)
    s2 := scramble (seed + seedStep + seedStep + seedStep)
    s3 := scramble (seed + seedStep + seedStep + seedStep + seedStep) }

@[inline] def step (g : Xoshiro) : UInt64 × Xoshiro :=
  let word := rotateLeft (g.s0 + g.s3) 23 + g.s0
  let t := g.s1 <<< 17
  let s2 := g.s2 ^^^ g.s0
  let s3 := g.s3 ^^^ g.s1
  let s1 := g.s1 ^^^ s2
  let s0 := g.s0 ^^^ s3
  (word, { s0 := s0, s1 := s1, s2 := s2 ^^^ t, s3 := rotateLeft s3 45 })

end Xoshiro

@[inline] instance : WordSource Xoshiro where
  next := Xoshiro.step

@[inline] def Xoshiro.seeds (first : UInt64) : Seeds Xoshiro :=
  ⟨ofSeed, first⟩

/-! ## A replayed list -/

structure Replay where
  words : Array UInt64
  position : Nat := 0
  deriving Repr, DecidableEq

namespace Replay

/-- Behind the last word comes the first one; an empty list yields zeros. -/
def step (r : Replay) : UInt64 × Replay :=
  (r.words.getD r.position 0, { r with position := (r.position + 1) % r.words.size })

end Replay

instance : WordSource Replay where
  next := Replay.step

end PirTuning.BinLoad
