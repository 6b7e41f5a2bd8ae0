import StepSampling.Decimal.Basic

/-!
# Faults

A fault is a broken precondition of a query.  Queries return `Except Fault`, so that which arguments
are refused is part of their definition and can be stated and proved.
-/

namespace StepSampling

/-- The preconditions that queries check. -/
inductive Fault where
  /-- There are no bins to choose from. -/
  | noBins
  /-- The coordinate to be moved into a bin is NaN. -/
  | coordinateNaN
  /-- The wanted bin is not among the bins. -/
  | noSuchBin
  /-- The position inside a bin is NaN. -/
  | positionNaN
  /-- A probability is asked for a bin that does not exist. -/
  | indexNotBelowCount
  /-- A search for an interval needs two entries. -/
  | noInterval
  /-- A point has two axes. -/
  | badAxis
  /-- A list is read behind its end. -/
  | outOfBounds (length index : Nat)
  /-- Cells are numbered along rows without columns. -/
  | noColumns
  deriving DecidableEq, Repr

/-- The text of the fault. -/
def Fault.message : Fault → String
  | .noBins => "assertion failed: n > 0"
  | .coordinateNaN => "assertion failed: !x.is_nan()"
  | .noSuchBin => "assertion failed: offset < n"
  | .positionNaN => "assertion failed: !du.is_nan()"
  | .indexNotBelowCount => "assertion failed: index < self.count()"
  | .noInterval => "find_interval needs at least one interval"
  | .badAxis => "Invalid axis for std::Index on Point2<T>"
  | .outOfBounds length index =>
    "index out of bounds: the len is " ++ Decimal.natText length ++ " but the index is " ++
      Decimal.natText index
  | .noColumns => "attempt to calculate the remainder with a divisor of zero"

/-- The entry at an index, a fault behind the end. -/
def fetch {α : Type} (xs : Array α) (i : Nat) : Except Fault α :=
  if h : i < xs.size then .ok xs[i] else .error (.outOfBounds xs.size i)

end StepSampling
