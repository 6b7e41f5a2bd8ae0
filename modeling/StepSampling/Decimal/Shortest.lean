import StepSampling.Binary.Basic
import StepSampling.Decimal.Basic

/-!
# Numbers as text

Two ways to write a number.

`Binary.text` writes the fewest digits that read back as the same number and, among those of equal
length, the decimal nearest to it.  The exact value is `units * 5 ^ scale / 10 ^ scale`, so the
candidates with `n` significant digits are the two neighbours of that numerator on the grid of the
matching power of ten.  Grids are tried from the coarsest on, and each candidate is tested by
rounding it back; the finest grid holds the exact value, so the search ends with a hit.  A grid
point with a trailing zero lies on the coarser grid too, so the digits found have none.

`Binary.fixedText` writes the exact value rounded to a given number of places, a half going to the
even digit.

Both write every number positionally, whatever its exponent, and keep the sign of zero.
-/

namespace StepSampling

namespace Magnitude

variable {F : Format}

/-- Whether `c * 10 ^ p / 10 ^ scale` rounds to the magnitude. -/
def readsBack (m : Magnitude F) (c p : Nat) : Bool :=
  (Magnitude.ofQuotient F (c * Nat.pow 10 p) (Nat.pow 5 F.scale)).code == m.code

/-- The neighbour of `exact` on the grid of multiples of `10 ^ p` that reads back, the nearer one if
both do, and the upper one if both are equally near. -/
def onGrid (m : Magnitude F) (exact p : Nat) : Option Nat :=
  let low := exact / Nat.pow 10 p
  let below := exact % Nat.pow 10 p
  match m.readsBack low p, m.readsBack (low + 1) p with
  | true, true => some (if 2 * below < Nat.pow 10 p then low else low + 1)
  | true, false => some low
  | false, true => some (low + 1)
  | false, false => none

/-- The first hit on the grids `10 ^ p`, `10 ^ (p - 1)`, …, `1`, with its grid. -/
def coarsest (m : Magnitude F) (exact : Nat) : Nat → Nat × Nat
  | 0 => (exact, 0)
  | p + 1 =>
    match m.onGrid exact (p + 1) with
    | some c => (c, p + 1)
    | none => coarsest m exact p

/-- The decimal with the fewest digits that reads back as the finite magnitude. -/
def shortest (m : Magnitude F) : Decimal :=
  if m.isZero then ⟨0, 0⟩
  else
    let exact := m.units * Nat.pow 5 F.scale
    let (c, p) := m.coarsest exact (Decimal.digitCount exact)
    if F.scale ≤ p then ⟨c * Nat.pow 10 (p - F.scale), 0⟩ else ⟨c, F.scale - p⟩

/-- The finite magnitude rounded to a number of places. -/
def toPlaces (m : Magnitude F) (places : Nat) : Decimal :=
  ⟨roundEven (m.units * Nat.pow 10 places) F.unity, places⟩

end Magnitude

namespace Binary

variable {F : Format}

/-- The characters of a number whose finite magnitudes are written by `write`. -/
def charsWith (write : Magnitude F → Decimal) : Binary F → List Char
  | .nan => "NaN".toList
  | .signed negative m =>
    (if negative then ['-'] else []) ++ if m.isInfinite then "inf".toList else (write m).chars

/-- The shortest characters that read back as the number. -/
def chars (x : Binary F) : List Char := x.charsWith Magnitude.shortest

/-- The shortest text that reads back as the number. -/
def text (x : Binary F) : String := String.ofList x.chars

/-- The number rounded to a fixed number of places. -/
def fixedText (places : Nat) (x : Binary F) : String :=
  String.ofList (x.charsWith (·.toPlaces places))

end Binary

end StepSampling
