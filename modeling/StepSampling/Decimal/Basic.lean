/-!
# Decimals

A decimal is a coefficient with a number of places behind the point.  It is written positionally:
the whole part without leading zeros, then, if there are places, a point and exactly that many
digits.  Digit sequences are lists of characters, so that writing and reading are both recursions
whose composition can be proved to be the identity.
-/

namespace StepSampling

/-- The number `coefficient / 10 ^ places`. -/
structure Decimal where
  /-- The digits of the number, read without the point. -/
  coefficient : Nat
  /-- How many of them stand behind the point. -/
  places : Nat
  deriving DecidableEq, Repr

namespace Decimal

/-! ## Digit sequences -/

/-- The character of a digit below ten. -/
def digitChar (d : Nat) : Char := Char.ofNat (48 + d)

/-- The last `width` digits of `n`, zeros in front included. -/
def fixedDigits : Nat → Nat → List Char
  | 0, _ => []
  | width + 1, n => fixedDigits width (n / 10) ++ [digitChar (n % 10)]

/-- How many digits `n` has; zero has one. -/
def digitCount (n : Nat) : Nat :=
  if n < 10 then 1 else digitCount (n / 10) + 1

/-- The digits of `n` without leading zeros. -/
def digits (n : Nat) : List Char := fixedDigits (digitCount n) n

/-- The number that a digit sequence denotes. -/
def ofDigits (cs : List Char) : Nat := cs.foldl (fun n c => 10 * n + (c.toNat - 48)) 0

/-! ## Writing -/

/-- The characters of a decimal. -/
def chars (d : Decimal) : List Char :=
  digits (d.coefficient / Nat.pow 10 d.places) ++
    if d.places = 0 then [] else '.' :: fixedDigits d.places (d.coefficient % Nat.pow 10 d.places)

/-- The text of a natural number. -/
def natText (n : Nat) : String := String.ofList (digits n)

/-- The text of an integer: a minus sign in front of a negative one. -/
def intText (i : Int) : String :=
  String.ofList (if i < 0 then '-' :: digits i.natAbs else digits i.natAbs)

end Decimal

end StepSampling
