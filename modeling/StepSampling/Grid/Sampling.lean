import StepSampling.Density.Sampling
import StepSampling.Grid.Basic
import StepSampling.Point

/-!
# Sampling a grid density

The first variate selects a row from the marginal, the second a column from that row, and the two
samples are the coordinates of the point: axis 0 runs along the rows, axis 1 across them.  The
density at a point is the weight of its cell over the integral of all weights, which is what the
product of the two sampled densities amounts to.
-/

namespace StepSampling.GridDensity

/-- The density along row `v`. -/
def conditional (d : GridDensity) (v : Nat) : Except Fault StepDensity := fetch d.rows v

/-- Samples a point together with its density. -/
def sample (d : GridDensity) (u : Point Single) : Except Fault (Point Single × Single) := do
  let across ← d.marginal.sample u.x
  let row ← d.conditional across.bin
  let along ← row.sample u.y
  return (⟨along.x, across.x⟩, along.density * across.density)

/-- The density at a point. -/
def densityAt (d : GridDensity) (p : Point Single) : Except Fault Single := do
  let column ← Bins.bin p.x d.columns
  let v ← Bins.bin p.y d.rowCount
  if d.marginal.isUniform then
    return Binary.one
  else
    let row ← d.conditional v
    let weight ← fetch row.weights column
    return weight / d.integral

end StepSampling.GridDensity
