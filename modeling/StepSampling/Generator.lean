import StepSampling.Binary.Arithmetic
import StepSampling.Ordering
import StepSampling.Point

/-!
# The variate generator

A linear congruential generator on 64-bit words whose output is a permuted excerpt of the state: the
high bits, folded by a shift, are rotated by an amount that the five highest bits select.  The
increment is odd, and so selects one of `2 ^ 63` streams of full period.

Drawing is a function from a generator to the drawn value and the generator after it.
-/

namespace StepSampling

/-- A generator: the current word and the increment of its stream. -/
structure Generator where
  /-- The current word. -/
  state : UInt64
  /-- The increment, odd in every generator that is built here. -/
  increment : UInt64
  deriving DecidableEq, Repr

namespace Generator

/-- The multiplier of the congruential step. -/
def multiplier : UInt64 := 0x5851f42d4c957f2d

/-- The word that seeding mixes in, and the word of the standard generator. -/
def standardState : UInt64 := 0x853c49e6748fea9b

/-- The increment of the standard generator. -/
def standardIncrement : UInt64 := 0xda3e39cb94b95bdb

/-- The generator that is used without a seed. -/
def standard : Generator := ⟨standardState, standardIncrement⟩

instance : Inhabited Generator := ⟨standard⟩

/-- The congruential step. -/
def advance (g : Generator) : Generator := { g with state := g.state * multiplier + g.increment }

/-- Rotates a 32-bit word to the right by fewer than 32 places. -/
def rotateRight (w r : UInt32) : UInt32 := (w >>> r) ||| (w <<< (32 - r))

/-- The output that belongs to a word of the state. -/
def output (word : UInt64) : UInt32 :=
  rotateRight (((word >>> 18) ^^^ word) >>> 27).toUInt32 (word >>> 59).toUInt32

/-- Draws a 32-bit word. -/
def next (g : Generator) : UInt32 × Generator := (output g.state, g.advance)

/-- The generator of a stream. -/
def ofSeed (seed : UInt64) : Generator :=
  let start : Generator := ⟨0, (seed <<< 1) ||| 1⟩
  let mixed := start.advance
  advance { mixed with state := mixed.state + standardState }

/-- The factor that scales 32-bit words to the unit interval. -/
def unitFactor : Single := Binary.one / Binary.ofNat .single UInt32.size

/-- Scales a 32-bit word to a number of the half-open unit interval. -/
def unitOf (word : UInt32) : Single :=
  lesser (Binary.ofNat .single word.toNat * unitFactor) Single.belowOne

/-- Draws a number of the half-open unit interval. -/
def nextUnit (g : Generator) : Single × Generator :=
  let (word, g) := g.next
  (unitOf word, g)

/-- Draws a point of the half-open unit square, axis 0 first. -/
def nextPoint (g : Generator) : Point Single × Generator :=
  let (x, g) := g.nextUnit
  let (y, g) := g.nextUnit
  (⟨x, y⟩, g)

end Generator

end StepSampling
