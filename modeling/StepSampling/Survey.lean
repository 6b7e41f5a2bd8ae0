import StepSampling.Generator
import StepSampling.Grid.Sampling
import StepSampling.Report

/-!
# Surveys

A survey builds a density, draws samples from it and counts in which bin each of them falls.  It
threads the generator through: a survey that gives up leaves the generator as it was, and one that
succeeds has drawn one variate for each sample of a step density, two for each of a grid density.

The counting is one loop, `tally`, over a function that draws the index of a bin.
-/

namespace StepSampling

/-- Why a survey gives up. -/
inductive SurveyError where
  /-- The density was refused. -/
  | refused (r : Refusal)
  /-- The rows have different lengths, found before a pool of workers is started. -/
  | ragged
  /-- A query failed. -/
  | fault (f : Fault)
  deriving DecidableEq, Repr

/-- The text of the error. -/
def SurveyError.message : SurveyError → String
  | .refused r => r.message
  | .ragged => "all rows must have the same number of values"
  | .fault f => f.message

namespace Survey

/-! ## Counting -/

/-- Adds one to the count of a bin. -/
def bump (counts : Array Nat) (k : Nat) : Except Fault (Array Nat) :=
  if k < counts.size then .ok (counts.modify k (· + 1))
  else .error (.outOfBounds counts.size k)

/-- Draws a number of bins and counts them. -/
def tally (draw : Generator → Except Fault (Nat × Generator)) :
    Nat → Generator → Array Nat → Except Fault (Array Nat × Generator)
  | 0, g, counts => .ok (counts, g)
  | samples + 1, g, counts =>
    match draw g with
    | .error f => .error f
    | .ok (k, g) =>
      match bump counts k with
      | .error f => .error f
      | .ok counts => tally draw samples g counts

/-- The share that a count is of the samples; of no samples it is taken as of one. -/
def share (count samples : Nat) : Double :=
  Binary.ofNat .double count / Binary.ofNat .double (max samples 1)

/-- The statistics of the bins, given what is expected of each. -/
def stats (expected : Nat → Except Fault Double) (samples : Nat) (counts : Array Nat) :
    Except Fault (List BinStats) :=
  counts.toList.zipIdx.mapM fun (count, i) => do
    let e ← expected i
    return ⟨e, share count samples⟩

/-! ## Step densities -/

/-- Draws a variate and selects a bin with it. -/
def drawBin (d : StepDensity) (g : Generator) : Except Fault (Nat × Generator) :=
  let (u, g) := g.nextUnit
  (d.bin u).map (·, g)

/-- The probability of a bin in double precision. -/
def expectedOfBin (d : StepDensity) (i : Nat) : Except Fault Double :=
  (d.probability i).map (·.convert .double)

/-- Surveys a step density. -/
def ofDensity (d : StepDensity) (samples : Nat) (g : Generator) :
    Except Fault (Report × Generator) := do
  let (counts, g) ← tally (drawBin d) samples g (Array.replicate d.count 0)
  let bins ← stats (expectedOfBin d) samples counts
  return (⟨d.count, 1, d.integral, samples, bins⟩, g)

/-! ## Grid densities -/

/-- Draws two variates, samples a point with them, and gives the index of its cell. -/
def drawCell (d : GridDensity) (g : Generator) : Except Fault (Nat × Generator) := do
  let (u, g) := g.nextPoint
  let (p, _) ← d.sample u
  let v ← Bins.bin p.y d.rowCount
  let column ← Bins.bin p.x d.columns
  return (v * d.columns + column, g)

/-- The centre of the stretch `k` of `n`. -/
def centre (k n : Nat) : Single :=
  (Binary.ofNat .single k + Binary.one / Binary.ofNat .single 2) / Binary.ofNat .single n

/-- The probability of a cell: the density at its centre times its area. -/
def expectedOfCell (d : GridDensity) (i : Nat) : Except Fault Double :=
  let area : Double := Binary.one / Binary.ofNat .double (d.columns * d.rowCount)
  let p : Point Single := ⟨centre (i % d.columns) d.columns, centre (i / d.columns) d.rowCount⟩
  (d.densityAt p).map fun density => density.convert .double * area

/-- Surveys a grid density. -/
def ofGrid (d : GridDensity) (samples : Nat) (g : Generator) :
    Except Fault (Report × Generator) := do
  let (counts, g) ← tally (drawCell d) samples g (Array.replicate (d.columns * d.rowCount) 0)
  let bins ← stats (expectedOfCell d) samples counts
  return (⟨d.columns, d.rowCount, d.integral, samples, bins⟩, g)

/-! ## Surveys of weights -/

/-- A survey's report and the generator after it; the generator is kept where there is no report. -/
def conclude (g : Generator) :
    Except Fault (Report × Generator) → Except SurveyError Report × Generator
  | .error f => (.error (.fault f), g)
  | .ok (r, after) => (.ok r, after)

/-- Builds a step density and surveys it. -/
def row (weights : List Single) (samples : Nat) (g : Generator) :
    Except SurveyError Report × Generator :=
  match StepDensity.build weights with
  | .error r => (.error (.refused r), g)
  | .ok d => conclude g (ofDensity d samples g)

/-- Builds the density of a table, with a pool of workers if there is to be more than one. -/
def buildTable (table : List (List Single)) (threads : Nat) : Except SurveyError GridDensity :=
  let columns := GridDensity.width table
  if 1 < threads then
    if table.any (·.length != columns) then .error .ragged
    else (GridDensity.buildWith threads table.flatten columns table.length).mapError .refused
  else (GridDensity.ofTable table).mapError .refused

/-- Builds a grid density and surveys it. -/
def table (rows : List (List Single)) (samples threads : Nat) (g : Generator) :
    Except SurveyError Report × Generator :=
  match buildTable rows threads with
  | .error e => (.error e, g)
  | .ok d => conclude g (ofGrid d samples g)

/-! ## Records -/

/-- What is logged by `row`. -/
def rowRecords (weights : List Single) : List Record :=
  match StepDensity.build weights with
  | .error _ => []
  | .ok d => d.records

/-- What is logged by `table`. -/
def tableRecords (rows : List (List Single)) (threads : Nat) : List Record :=
  let columns := GridDensity.width rows
  if 1 < threads then
    if rows.any (·.length != columns) then []
    else GridDensity.crewRecords threads rows.flatten columns rows.length
  else GridDensity.tableRecords rows

end Survey

end StepSampling
