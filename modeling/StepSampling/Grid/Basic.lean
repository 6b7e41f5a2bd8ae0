import StepSampling.Density.Basic
import StepSampling.Ordering
import StepSampling.Pool.Execution

/-!
# Grid densities

A grid density is a probability density on the unit square that is constant on the cells of a grid.
It is kept as one step density for each row and the marginal step density of the row integrals.

There are three ways to build one: from the weights in row-major order, from a list of rows, and
from the weights with a pool of workers that build the rows.  All three give the same density or the
same refusal, up to the refusal of rows of different lengths, which only a list of rows can have.
-/

namespace StepSampling

/-- A density that is constant on the cells of a grid. -/
structure GridDensity where
  /-- The density along each row. -/
  rows : Array StepDensity
  /-- The density across the rows, built from their integrals. -/
  marginal : StepDensity
  deriving DecidableEq, Repr

/-- The first `rows` stretches of the given length. -/
def stretches {α : Type} (length : Nat) : Nat → List α → List (List α)
  | 0, _ => []
  | rows + 1, xs => xs.take length :: stretches length rows (xs.drop length)

namespace GridDensity

/-! ## Building -/

/-- Joins the densities of the rows by their marginal. -/
def ofRows (rows : List StepDensity) : Except Refusal GridDensity :=
  (StepDensity.build (rows.map (·.integral))).map (⟨rows.toArray, ·⟩)

/-- Builds the density whose weights are given row by row. -/
def build (weights : List Single) (columns rows : Nat) : Except Refusal GridDensity :=
  match checkGrid weights columns rows with
  | .error r => .error r
  | .ok () =>
    match (stretches columns rows weights).mapM StepDensity.build with
    | .error r => .error r
    | .ok built => ofRows built

/-- The length of the first row, zero if there is none. -/
def width (table : List (List Single)) : Nat :=
  match table with
  | [] => 0
  | row :: _ => row.length

/-- Builds the density of a list of rows, which must have equal lengths. -/
def ofTable (table : List (List Single)) : Except Refusal GridDensity :=
  let columns := width table
  match table.findIdx? (·.length != columns) with
  | some v => .error (.raggedRow v (table.getD v []).length columns)
  | none => build table.flatten columns table.length

/-- The number of workers that is used for a number of rows. -/
def crewSize (threads rows : Nat) : Nat := clamp threads 1 rows

/-- The plan of a pool that builds the rows. -/
def plan (weights : List Single) (columns rows threads : Nat) : Pool.Plan Refusal StepDensity :=
  let parts := (stretches columns rows weights).toArray
  { tasks := rows
    workers := crewSize threads rows
    job := fun v => StepDensity.build (parts.getD v []) }

/-- Builds the density with a pool of workers. -/
def buildWith (threads : Nat) (weights : List Single) (columns rows : Nat) :
    Except Refusal GridDensity :=
  match checkGrid weights columns rows with
  | .error r => .error r
  | .ok () =>
    match (plan weights columns rows threads).execute with
    | .error r => .error r
    | .ok built => ofRows built

/-! ## Dimensions -/

/-- The number of columns. -/
def columns (d : GridDensity) : Nat :=
  match d.rows[0]? with
  | some row => row.count
  | none => 0

/-- The number of rows. -/
def rowCount (d : GridDensity) : Nat := d.marginal.count

/-- The integral of the weights over the unit square, their mean. -/
def integral (d : GridDensity) : Single := d.marginal.integral

/-! ## Records -/

/-- The densities of the rows before the first one that is refused. -/
def builtRows : List (List Single) → List StepDensity
  | [] => []
  | row :: rest =>
    match StepDensity.build row with
    | .error _ => []
    | .ok d => d :: builtRows rest

/-- The dimensions as text. -/
def extent (d : GridDensity) : String :=
  Decimal.natText d.columns ++ " x " ++ Decimal.natText d.rowCount

/-- What is logged once the rows are built, with the closing record given by `closing`. -/
def marginalRecords (closing : GridDensity → Record) : Except Refusal GridDensity → List Record
  | .error _ => []
  | .ok d => d.marginal.records ++ [closing d]

/-- What is logged by `build`. -/
def buildRecords (weights : List Single) (columns rows : Nat) : List Record :=
  match checkGrid weights columns rows with
  | .error _ => []
  | .ok () =>
    (builtRows (stretches columns rows weights)).flatMap StepDensity.records ++
      marginalRecords
        (fun d =>
          ⟨.debug, "Built " ++ d.extent ++ " distribution, integral = " ++ d.integral.text⟩)
        (build weights columns rows)

/-- What is logged by `ofTable`. -/
def tableRecords (table : List (List Single)) : List Record :=
  if table.any (·.length != width table) then []
  else buildRecords table.flatten (width table) table.length

/-- What is logged when a worker has done the task of a row. -/
def taskRecords : Except Refusal StepDensity → List Record
  | .error _ => []
  | .ok d => d.records

/-- The record that closes the work with a pool. -/
def crewClosing (threads rows : Nat) (d : GridDensity) : Record :=
  ⟨.info, "Built " ++ d.extent ++ " distribution on " ++ Decimal.natText (crewSize threads rows) ++
    " threads, integral = " ++ d.integral.text⟩

/-- What is logged by `buildWith` in the execution that is run.  In another execution the records of
the rows stand in another order, and after a refusal there may be more or fewer of them: the workers go
on, and log the rows that they still build. -/
def crewRecords (threads : Nat) (weights : List Single) (columns rows : Nat) : List Record :=
  match checkGrid weights columns rows with
  | .error _ => []
  | .ok () =>
    let p := plan weights columns rows threads
    p.finish.done.flatMap (fun v => taskRecords (p.job v)) ++
      marginalRecords (crewClosing threads rows) (buildWith threads weights columns rows)

end GridDensity

end StepSampling
