import StepSampling.Record
import StepSampling.Refusal

/-!
# Step densities

A step density is a probability density on the unit interval that is constant on each of `n` bins of
equal width.  It is built from `n` weights, which need not be normalised.

Building sums the weights divided by `n` from left to right; the last sum is the integral, and the
sums divided by it are the cumulative distribution `cdf`, with `n + 1` entries.  Two cases need care.
When the integral is zero there is nothing to divide by, and the bins are taken as equally likely.
Otherwise every entry behind the last positive weight is set to exactly one, so that no variate below
one can select a bin of weight zero at the end.
-/

namespace StepSampling

/-- A density that is constant on bins of equal width. -/
structure StepDensity where
  /-- The weights it was built from, one for each bin. -/
  weights : Array Single
  /-- The cumulative distribution at the edges of the bins. -/
  cdf : Array Single
  /-- The integral of the weights over the unit interval, their mean. -/
  integral : Single
  deriving DecidableEq, Repr

namespace StepDensity

/-- The sums `c`, `c + w₀ / n`, `c + w₀ / n + w₁ / n`, …, each addition rounded. -/
def runningSums (n c : Single) : List Single → List Single
  | [] => [c]
  | w :: rest => c :: runningSums n (c + w / n) rest

/-- How many weights there are up to the last positive one. -/
def support : List Single → Nat
  | [] => 0
  | w :: rest =>
    match support rest with
    | 0 => if Binary.zero < w then 1 else 0
    | k + 1 => k + 2

/-- Replaces the entries from index `k` on by one. -/
def pinFrom (k : Nat) (entries : List Single) : List Single :=
  entries.take k ++ (entries.drop k).map fun _ => Binary.one

/-- The cumulative distribution of equally likely bins. -/
def uniformCdf (n : Nat) : List Single :=
  (List.range (n + 1)).map fun i => Binary.ofNat .single i / Binary.ofNat .single n

/-- The cumulative distribution that belongs to running sums with a positive integral. -/
def normalisedCdf (weights sums : List Single) (integral : Single) : List Single :=
  let entries := sums.map (· / integral)
  match support weights with
  | 0 => entries
  | k + 1 => pinFrom (k + 1) entries

/-- Builds the density with the given weights. -/
def build (weights : List Single) : Except Refusal StepDensity :=
  match checkWeights weights with
  | .error r => .error r
  | .ok () =>
    let n := weights.length
    let sums := runningSums (Binary.ofNat .single n) Binary.zero weights
    let integral := sums.getLastD Binary.zero
    if !integral.isFinite then .error (.overflow n)
    else
      let cdf := if integral.isZero then uniformCdf n else normalisedCdf weights sums integral
      .ok ⟨weights.toArray, cdf.toArray, integral⟩

/-- The number of bins. -/
def count (d : StepDensity) : Nat := d.weights.size

/-- Whether all weights are zero, so that the bins are taken as equally likely. -/
def isUniform (d : StepDensity) : Bool := d.integral.isZero

/-- What is logged when the density has been built. -/
def records (d : StepDensity) : List Record :=
  let bins := Decimal.natText d.count
  (if d.isUniform then
    [⟨.debug, "Function is zero over all " ++ bins ++ " bins; sampling it uniformly"⟩]
  else []) ++
    [⟨.debug, "Built 1D distribution with " ++ bins ++ " bins, integral = " ++ d.integral.text⟩]

end StepDensity

end StepSampling
