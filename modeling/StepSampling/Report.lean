import StepSampling.Binary.Arithmetic
import StepSampling.Decimal.Shortest
import StepSampling.Fault
import StepSampling.Ordering

/-!
# Reports

A report compares, bin by bin, the probability that a density gives to a bin with the share of the
samples that fell into it.  Bins are listed row by row.
-/

namespace StepSampling

/-- The two probabilities of one bin. -/
structure BinStats where
  /-- The probability according to the density. -/
  expected : Double
  /-- The share of the samples. -/
  observed : Double
  deriving DecidableEq, Repr

/-- The result of a survey. -/
structure Report where
  /-- Bins in a row. -/
  columns : Nat
  /-- Rows of bins. -/
  rows : Nat
  /-- The integral of the weights. -/
  integral : Single
  /-- How many samples were drawn. -/
  samples : Nat
  /-- The bins, row by row. -/
  bins : List BinStats
  deriving DecidableEq, Repr

/-- How far the two probabilities of a bin are apart. -/
def BinStats.deviation (b : BinStats) : Double := (b.expected - b.observed).abs

namespace Report

/-- The places behind the point in a report. -/
def places : Nat := 5

/-- The largest deviation of a bin; deviations that are NaN are passed over. -/
def maxDeviation (r : Report) : Double :=
  r.bins.foldl (fun largest b => greater b.deviation largest) Binary.zero

/-- The line of the bin with index `i`. -/
def binLine (columns i : Nat) (b : BinStats) : String :=
  "  (" ++ Decimal.natText (i % columns) ++ ", " ++ Decimal.natText (i / columns) ++
    ") expected " ++ b.expected.fixedText places ++ " observed " ++ b.observed.fixedText places ++
    "\n"

/-- The report as text: a heading, a line for each bin, and the largest deviation. -/
def text (r : Report) : Except Fault String :=
  if r.columns = 0 ∧ r.bins ≠ [] then .error .noColumns
  else
    let heading := Decimal.natText r.columns ++ " x " ++ Decimal.natText r.rows ++
      " bins, integral = " ++ r.integral.text ++ ", " ++ Decimal.natText r.samples ++ " samples\n"
    let lines := r.bins.zipIdx.map fun (b, i) => binLine r.columns i b
    .ok (heading ++ String.join lines ++ "max deviation = " ++ r.maxDeviation.fixedText places)

end Report

end StepSampling
