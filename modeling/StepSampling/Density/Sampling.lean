import StepSampling.Bins
import StepSampling.Density.Basic
import StepSampling.Search

/-!
# Sampling a step density

A variate selects the bin whose segment of the cumulative distribution contains it; variates outside
the unit interval select the first or the last bin.  The place of the variate inside the segment,
between zero and one, then gives a point of the bin, or a fresh variate for further decisions.

A sampled point is confined to its bin, so that the density found from the point alone is the one it
was sampled with.
-/

namespace StepSampling

/-- A point sampled from a step density. -/
structure Draw where
  /-- The point, in the half-open unit interval. -/
  x : Single
  /-- The density at the point. -/
  density : Single
  /-- The bin of the point. -/
  bin : Nat
  deriving DecidableEq, Repr

/-- A bin selected from a step density. -/
structure Selection where
  /-- The bin. -/
  bin : Nat
  /-- The probability of the bin. -/
  probability : Single
  deriving DecidableEq, Repr

namespace StepDensity

/-- The bin that a variate selects. -/
def bin (d : StepDensity) (u : Single) : Except Fault Nat :=
  Search.intervalM d.cdf.size fun i => (fetch d.cdf i).map fun c => decide (c ≤ u)

/-- The place of a variate inside the segment of bin `k`, zero if the segment has no width. -/
def position (d : StepDensity) (u : Single) (k : Nat) : Except Fault Single := do
  let low ← fetch d.cdf k
  let high ← fetch d.cdf (k + 1)
  let width := high - low
  return if Binary.zero < width then clamp ((u - low) / width) Binary.zero Binary.one
    else Binary.zero

/-- The density in bin `k`. -/
def density (d : StepDensity) (k : Nat) : Except Fault Single :=
  if Binary.zero < d.integral then (fetch d.weights k).map (· / d.integral) else .ok Binary.one

/-- The probability of bin `k`. -/
def probability (d : StepDensity) (k : Nat) : Except Fault Single :=
  if k < d.count then (d.density k).map (· / Binary.ofNat .single d.count)
  else .error .indexNotBelowCount

/-- The density at a coordinate. -/
def densityAt (d : StepDensity) (x : Single) : Except Fault Single := do
  let k ← Bins.bin x d.count
  d.density k

/-- The coordinate at position `t` of bin `k` among `n` bins, before it is confined to the bin. -/
def coordinate (k n : Nat) (t : Single) : Single :=
  lesser ((Binary.ofNat .single k + t) / Binary.ofNat .single n) Single.belowOne

/-- Samples a point. -/
def sample (d : StepDensity) (u : Single) : Except Fault Draw := do
  let k ← d.bin u
  let t ← d.position u k
  if t.isNaN then .error .positionNaN
  else
    let x ← Bins.confine (coordinate k d.count t) k d.count
    let density ← d.density k
    return ⟨x, density, k⟩

/-- Selects a bin. -/
def select (d : StepDensity) (u : Single) : Except Fault Selection := do
  let k ← d.bin u
  let probability ← d.probability k
  return ⟨k, probability⟩

/-- Selects a bin and turns the rest of the variate into a fresh one. -/
def selectRemapped (d : StepDensity) (u : Single) : Except Fault (Selection × Single) := do
  let k ← d.bin u
  let t ← d.position u k
  let probability ← d.probability k
  return (⟨k, probability⟩, lesser t Single.belowOne)

end StepDensity

end StepSampling
