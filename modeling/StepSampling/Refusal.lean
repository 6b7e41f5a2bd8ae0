import StepSampling.Binary.Arithmetic
import StepSampling.Decimal.Shortest

/-!
# Refusals

Why weights do not describe a density.  The checks run in a fixed order, so of two reasons the same
one is always given; a refused weight is named with the least index.
-/

namespace StepSampling

/-- The reasons for which no density is built. -/
inductive Refusal where
  /-- There is no weight. -/
  | noWeights
  /-- A weight is negative, infinite or NaN. -/
  | badWeight (weight : Single) (index : Nat)
  /-- The integral is beyond the largest finite number. -/
  | overflow (count : Nat)
  /-- A grid has no columns or no rows. -/
  | emptyGrid (columns rows : Nat)
  /-- The number of weights is not the product of the dimensions. -/
  | wrongSize (count columns rows : Nat)
  /-- A row is not as long as the first one. -/
  | raggedRow (row length expected : Nat)
  deriving DecidableEq, Repr

namespace Refusal

/-- The reason in words. -/
def reason : Refusal → String
  | .noWeights => "piecewise-constant function needs at least one value"
  | .badWeight weight index =>
    "function value " ++ weight.text ++ " at index " ++ Decimal.natText index ++
      " is not a finite non-negative number"
  | .overflow count =>
    "integral of function with " ++ Decimal.natText count ++ " values overflows"
  | .emptyGrid columns rows =>
    "grid dimensions must be positive, got " ++ Decimal.natText columns ++ " x " ++
      Decimal.natText rows
  | .wrongSize count columns rows =>
    "grid of " ++ Decimal.natText count ++ " values does not match dimensions " ++
      Decimal.natText columns ++ " x " ++ Decimal.natText rows
  | .raggedRow row length expected =>
    "row " ++ Decimal.natText row ++ " has " ++ Decimal.natText length ++ " values, expected " ++
      Decimal.natText expected

/-- The text of the refusal. -/
def message (r : Refusal) : String := "invalid argument: " ++ r.reason

end Refusal

/-- Whether the number can serve as a weight: finite and not negative; both zeros can. -/
def Single.isWeight (w : Single) : Bool := w.isFinite && decide (Binary.zero ≤ w)

/-- Accepts a non-empty list of weights. -/
def checkWeights (weights : List Single) : Except Refusal Unit :=
  if weights = [] then .error .noWeights
  else
    match weights.findIdx? (!Single.isWeight ·) with
    | some i => .error (.badWeight (weights.getD i .nan) i)
    | none => .ok ()

/-- Accepts the weights of a grid with the given dimensions. -/
def checkGrid (weights : List Single) (columns rows : Nat) : Except Refusal Unit :=
  if columns = 0 ∨ rows = 0 then .error (.emptyGrid columns rows)
  else if columns * rows ≠ weights.length then .error (.wrongSize weights.length columns rows)
  else checkWeights weights

end StepSampling
