import StepSampling.Binary.Arithmetic
import StepSampling.Fault
import StepSampling.Ordering

/-!
# Bins of equal width

The unit interval is cut into `n` bins of equal width.  `binOf` tells which bin a coordinate falls
into; it is the rounded product of the coordinate and `n`, so a coordinate within half a rounding
step below an edge already counts to the next bin, and coordinates outside the interval count to the
first or the last bin.

Because of that rounding, a coordinate that is computed from a bin need not fall back into it.
`confine` moves a coordinate by single neighbours until it does.  The walks go one way each and stop
where no further number is left, which is the measure that makes them end.
-/

namespace StepSampling.Bins

/-- The bin of a coordinate among `n` bins, for positive `n`. -/
def binOf (x : Single) (n : Nat) : Nat :=
  clamp (x * Binary.ofNat .single n).toWord 0 (n - 1)

/-- The bin of a coordinate among `n` bins. -/
def bin (x : Single) (n : Nat) : Except Fault Nat :=
  if n = 0 then .error .noBins else .ok (binOf x n)

/-- Steps down until the coordinate falls into the bin `k` or below it. -/
def lower (k n : Nat) (x : Single) : Single :=
  if k < binOf x n then
    if x.down.key < x.key then lower k n x.down else x
  else x
termination_by (x.key + Format.single.top).toNat
decreasing_by
  have hLow := Binary.neg_top_le_key x.down
  omega

/-- Steps up until the coordinate falls into the bin `k` or above it. -/
def raise (k n : Nat) (x : Single) : Single :=
  if binOf x n < k then
    if x.key < x.up.key then raise k n x.up else x
  else x
termination_by (Format.single.top - x.key).toNat
decreasing_by
  have hHigh := Binary.key_le_top x.up
  omega

/-- Moves a coordinate by neighbours until it falls into bin `k` of `n`. -/
def confine (x : Single) (k n : Nat) : Except Fault Single :=
  if x.isNaN then .error .coordinateNaN
  else if n ≤ k then .error .noSuchBin
  else .ok (raise k n (lower k n x))

end StepSampling.Bins
