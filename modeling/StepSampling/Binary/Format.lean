/-!
# Binary interchange formats

The two formats of the library, given by the widths of their fields and by the constants that the
arithmetic uses.  The constants are functions of the widths, which is what lets the theory treat both
formats at once.

Numbers without their sign are handled through their *codes*.  The code of a magnitude is its bit
pattern with the sign bit removed, read as a natural number.  Codes are ordered as the magnitudes
they denote, consecutive codes denote neighbouring magnitudes, and the largest code, `top`, denotes
infinity.  The exact value of a finite code is a whole number of `2 ^ (-scale)`, the spacing of the
subnormal numbers.
-/

namespace StepSampling

/-- The formats of numbers. -/
inductive Format where
  /-- The 32-bit format. -/
  | single
  /-- The 64-bit format. -/
  | double
  deriving DecidableEq, Repr

namespace Format

/-- Stored bits of the significand, the leading one not among them. -/
def fractionBits : Format → Nat
  | .single => 23
  | .double => 52

/-- Bits of the biased exponent. -/
def exponentBits : Format → Nat
  | .single => 8
  | .double => 11

/-- The weight of the leading bit of a significand, and the least code of a normal number. -/
def hidden : Format → Nat
  | .single => 0x800000
  | .double => 0x10000000000000

/-- The code of infinity: all exponent bits set, no fraction bit set. -/
def top : Format → Nat
  | .single => 0x7f800000
  | .double => 0x7ff0000000000000

/-- The weight of the sign bit. -/
def signBit : Format → Nat
  | .single => 0x80000000
  | .double => 0x8000000000000000

/-- Finite magnitudes are whole multiples of `2 ^ (-scale)`. -/
def scale : Format → Nat
  | .single => 149
  | .double => 1074

/-- How many units of `2 ^ (-scale)` make one. -/
def unity : Format → Nat
  | .single => 1 <<< 149
  | .double => 1 <<< 1074

end Format

end StepSampling
