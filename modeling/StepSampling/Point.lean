import StepSampling.Binary.Arithmetic
import StepSampling.Decimal.Shortest
import StepSampling.Fault

/-!
# Points of the plane

Sample points, and the pairs of variates they are drawn with, are points of single-precision
coordinates.  The operations that need no arithmetic are available for every type of coordinates.
-/

namespace StepSampling

/-- A point with two coordinates. -/
structure Point (α : Type) where
  /-- The coordinate on axis 0. -/
  x : α
  /-- The coordinate on axis 1. -/
  y : α
  deriving DecidableEq, Repr

/-- What a type of coordinates offers: an origin, equality of value, and text. -/
class Coordinate (α : Type) where
  /-- The coordinate of the origin. -/
  origin : α
  /-- Equality of value. -/
  equals : α → α → Bool
  /-- The coordinate as text. -/
  text : α → String

instance {F : Format} : Coordinate (Binary F) := ⟨.zero, Binary.equals, Binary.text⟩

instance : Coordinate Int := ⟨0, (· == ·), Decimal.intText⟩

namespace Point

variable {α : Type}

/-- The coordinate on an axis. -/
def coordinate (p : Point α) (axis : Nat) : Except Fault α :=
  match axis with
  | 0 => .ok p.x
  | 1 => .ok p.y
  | _ => .error .badAxis

variable [Coordinate α]

/-- The point where both coordinates vanish. -/
def origin : Point α := ⟨Coordinate.origin, Coordinate.origin⟩

/-- Equality of value in both coordinates. -/
def equals (p q : Point α) : Bool := Coordinate.equals p.x q.x && Coordinate.equals p.y q.y

/-- The point as a pair in parentheses. -/
def text (p : Point α) : String :=
  "(" ++ Coordinate.text p.x ++ ", " ++ Coordinate.text p.y ++ ")"

end Point

/-- Whether a coordinate lies in the half-open unit interval. -/
def Single.inUnitInterval (x : Single) : Bool :=
  decide (Binary.zero ≤ x) && decide (x < Binary.one)

/-- Whether both coordinates lie in the half-open unit interval. -/
def Point.inUnitSquare (p : Point Single) : Bool :=
  Single.inUnitInterval p.x && Single.inUnitInterval p.y

end StepSampling
