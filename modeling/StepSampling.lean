import StepSampling.Binary.Arithmetic
import StepSampling.Binary.Basic
import StepSampling.Binary.Format
import StepSampling.Binary.Magnitude
import StepSampling.Binary.Rounding
import StepSampling.Bins
import StepSampling.Decimal.Basic
import StepSampling.Decimal.Reading
import StepSampling.Decimal.Shortest
import StepSampling.Density.Basic
import StepSampling.Density.Sampling
import StepSampling.Fault
import StepSampling.Generator
import StepSampling.Grid.Basic
import StepSampling.Grid.Sampling
import StepSampling.Main
import StepSampling.Options
import StepSampling.Ordering
import StepSampling.Point
import StepSampling.Pool.Basic
import StepSampling.Pool.Execution
import StepSampling.Program
import StepSampling.Proofs.Binary.Codes
import StepSampling.Record
import StepSampling.Refusal
import StepSampling.Report
import StepSampling.Search
import StepSampling.Survey
import StepSampling.Table
import StepSampling.Text.Pieces
import StepSampling.Text.WhiteSpace
import StepSampling.Proofs.Binary.Value
import StepSampling.Proofs.Binary.Operations
import StepSampling.Proofs.Binary.Neighbours
import StepSampling.Proofs.Binary.Nonnegative
import StepSampling.Proofs.Binary.Limits
import StepSampling.Proofs.Density.Cumulative
import StepSampling.Proofs.Bins
import StepSampling.Proofs.Search
import StepSampling.Proofs.Density.Agreement
import StepSampling.Proofs.Grid.Structure
import StepSampling.Proofs.Density.Bounds
import StepSampling.Proofs.Grid.Agreement
import StepSampling.Proofs.Pool.Invariant
import StepSampling.Proofs.Pool.Outcome
import StepSampling.Proofs.Grid.Crew
import StepSampling.Proofs.Pool.Log
import StepSampling.Proofs.Grid.Log
import StepSampling.Proofs.Grid.Construction
import StepSampling.Proofs.Density.Selection
import StepSampling.Proofs.Density.Queries
import StepSampling.Proofs.Grid.Queries
import StepSampling.Proofs.Grid.Fallback
import StepSampling.Proofs.Survey
import StepSampling.Proofs.Density.Inversion
import StepSampling.Proofs.Binary.Monotone
import StepSampling.Proofs.Density.Monotone
import StepSampling.Proofs.Density.Accuracy
import StepSampling.Proofs.Density.Drift
import StepSampling.Proofs.Density.Acceptance
import StepSampling.Proofs.Density.Underflow
import StepSampling.Proofs.Decimal.Digits
import StepSampling.Proofs.Program
import StepSampling.Proofs.Program.Works
import StepSampling.Proofs.Program.Sessions
import StepSampling.Proofs.Density.Probability
import StepSampling.Proofs.Grid.Accuracy
import StepSampling.Proofs.Binary.Scaling
import StepSampling.Proofs.Density.Scaling
import StepSampling.Proofs.Generator.Equidistribution
import StepSampling.Proofs.Survey.Determinism
import StepSampling.Proofs.Survey.Log
import StepSampling.Proofs.Survey.Alignment
import StepSampling.Proofs.Table.Grammar
import StepSampling.Proofs.Search.Runs
import StepSampling.Proofs.Density.Excess
import StepSampling.Proofs.Decimal.Reading
import StepSampling.Proofs.Table.Layout
import StepSampling.Proofs.Binary.Succession
