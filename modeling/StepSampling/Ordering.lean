/-!
# Choosing by strict comparison

Minimum, maximum and clamping in terms of a strict comparison alone.  For numbers with NaN and two
zeros the choice of operand is visible: whenever the comparison fails, the second operand wins, and
a value that compares with neither bound passes `clamp` unchanged.
-/

namespace StepSampling

variable {α : Type} [LT α] [DecidableRel ((· < ·) : α → α → Prop)]

/-- The first value if it is strictly below the second, else the second. -/
def lesser (a b : α) : α := if a < b then a else b

/-- The first value if it is strictly above the second, else the second. -/
def greater (a b : α) : α := if b < a then a else b

/-- The value, moved to the bound it lies beyond. -/
def clamp (value low high : α) : α :=
  if value < low then low else if high < value then high else value

end StepSampling
