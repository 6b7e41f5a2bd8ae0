import StepSampling.Binary.Basic
import StepSampling.Decimal.Basic

/-!
# Reading a number

The grammar is: an optional sign, then one of the words `inf`, `infinity` and `nan` in any case of
letters, or digits with at most one point and at least one digit, followed by an optional exponent
of `e` or `E`, an optional sign and at least one digit.  The value is computed exactly and rounded
once.

A decimal exponent can be far beyond the range of the format.  Two bounds on the position of the
leading digit settle those numbers before any large power is formed: from `10 ^ (2 ^ (b - 1))` on,
with `b` exponent bits, a value is beyond the largest finite number, and below `10 ^ (-scale)` it is
less than half of the least positive one.
-/

namespace StepSampling

namespace Magnitude

/-- The magnitude nearest to `coefficient * 10 ^ exponent`. -/
def ofScientific (F : Format) (coefficient : Nat) (exponent : Int) : Magnitude F :=
  let leading := exponent + Decimal.digitCount coefficient
  if coefficient = 0 then .zero
  else if 1 <<< (F.exponentBits - 1) < leading then .infinity
  else if leading < -F.scale then .zero
  else if 0 ≤ exponent then .ofQuotient F (coefficient * Nat.pow 10 exponent.toNat * F.unity) 1
  else .ofQuotient F (coefficient * F.unity) (Nat.pow 10 (-exponent).toNat)

end Magnitude

namespace Decimal

/-- Whether the character is one of the ten digits. -/
def isDigit (c : Char) : Bool := decide ('0' ≤ c) && decide (c ≤ '9')

/-- Splits off a sign; the flag says whether it is a minus. -/
def splitSign : List Char → Bool × List Char
  | '-' :: rest => (true, rest)
  | '+' :: rest => (false, rest)
  | cs => (false, cs)

/-- Splits off the longest run of digits. -/
def splitDigits (cs : List Char) : List Char × List Char :=
  (cs.takeWhile isDigit, cs.dropWhile isDigit)

/-- Splits off a point and the digits behind it. -/
def splitFraction : List Char → List Char × List Char
  | '.' :: rest => splitDigits rest
  | cs => ([], cs)

/-- The exponent that makes up all of the characters; no character at all is the exponent zero. -/
def readExponent : List Char → Option Int
  | [] => some 0
  | e :: rest =>
    if e = 'e' ∨ e = 'E' then
      let (negative, body) := splitSign rest
      if body = [] ∨ !body.all isDigit then none
      else some (if negative then -(ofDigits body : Int) else ofDigits body)
    else none

/-- The coefficient and the exponent of an unsigned decimal. -/
def readScientific (cs : List Char) : Option (Nat × Int) :=
  let (whole, afterWhole) := splitDigits cs
  let (fraction, afterFraction) := splitFraction afterWhole
  if whole = [] ∧ fraction = [] then none
  else
    (readExponent afterFraction).map fun e =>
      (ofDigits (whole ++ fraction), e - fraction.length)

end Decimal

namespace Binary

/-- The number that makes up all of the characters. -/
def read? (F : Format) (cs : List Char) : Option (Binary F) :=
  let (negative, body) := Decimal.splitSign cs
  let word := body.map Char.toLower
  if word = "inf".toList ∨ word = "infinity".toList then some (.signed negative .infinity)
  else if word = "nan".toList then some .nan
  else
    (Decimal.readScientific body).map fun (coefficient, exponent) =>
      .signed negative (.ofScientific F coefficient exponent)

end Binary

end StepSampling
