import StepSampling.Binary.Magnitude

/-!
# Binary floating-point numbers

A number is either the one NaN or a sign with a magnitude, so that both zeros and both infinities
are ordinary values.  NaN carries no sign and no payload: no query of this library can tell two of
them apart.

The order is read off the signed code, `key`.  Both zeros have the key `0`, and NaN is neither below
nor above nor equal to anything.  Structural equality tells the zeros apart; `equals` does not.
-/

namespace StepSampling

/-- A number of the format `F`. -/
inductive Binary (F : Format) where
  /-- Not a number. -/
  | nan
  /-- A signed magnitude. -/
  | signed (negative : Bool) (magnitude : Magnitude F)
  deriving DecidableEq, Repr

/-- Numbers of the 32-bit format: weights, coordinates, densities. -/
abbrev Single := Binary .single

/-- Numbers of the 64-bit format: the columns of reports. -/
abbrev Double := Binary .double

namespace Binary

variable {F : Format}

/-- Positive zero. -/
def zero : Binary F := .signed false .zero

/-- Positive infinity. -/
def infinity : Binary F := .signed false .infinity

/-- The natural number nearest in the format. -/
def ofNat (F : Format) (n : Nat) : Binary F := .signed false (.ofDyadic F n F.scale)

/-- One. -/
def one : Binary F := ofNat F 1

instance : Inhabited (Binary F) := ⟨.nan⟩

/-! ## Classes of numbers -/

/-- Whether the value is NaN. -/
def isNaN : Binary F → Bool
  | .nan => true
  | .signed _ _ => false

/-- Whether the value is a number other than the infinities. -/
def isFinite : Binary F → Bool
  | .nan => false
  | .signed _ m => !m.isInfinite

/-- Whether the value is one of the two zeros. -/
def isZero : Binary F → Bool
  | .nan => false
  | .signed _ m => m.isZero

/-! ## Order -/

/-- The signed code, which orders the numbers; both zeros have the key `0`. -/
def key : Binary F → Int
  | .nan => 0
  | .signed false m => m.code
  | .signed true m => -m.code

/-- Strictly below; false when an argument is NaN. -/
def lt (a b : Binary F) : Prop := a.isNaN = false ∧ b.isNaN = false ∧ a.key < b.key

/-- Below or of equal value; false when an argument is NaN. -/
def le (a b : Binary F) : Prop := a.isNaN = false ∧ b.isNaN = false ∧ a.key ≤ b.key

instance : LT (Binary F) := ⟨lt⟩

instance : LE (Binary F) := ⟨le⟩

instance (a b : Binary F) : Decidable (a < b) :=
  inferInstanceAs (Decidable (a.isNaN = false ∧ b.isNaN = false ∧ a.key < b.key))

instance (a b : Binary F) : Decidable (a ≤ b) :=
  inferInstanceAs (Decidable (a.isNaN = false ∧ b.isNaN = false ∧ a.key ≤ b.key))

/-- Equality of value: the zeros are equal, and NaN is not equal to itself. -/
def equals (a b : Binary F) : Bool := decide (a ≤ b) && decide (b ≤ a)

/-- No key exceeds the code of infinity. -/
theorem key_le_top (x : Binary F) : x.key ≤ F.top := by
  match x with
  | .nan => exact Int.natCast_nonneg _
  | .signed false m => exact Int.ofNat_le.mpr m.code_le_top
  | .signed true m => simp only [key]; omega

/-- No key is below the negated code of infinity. -/
theorem neg_top_le_key (x : Binary F) : -(F.top : Int) ≤ x.key := by
  match x with
  | .nan => simp only [key]; omega
  | .signed false m => simp only [key]; omega
  | .signed true m =>
    have hTop := m.code_le_top
    simp only [key]; omega

/-! ## Bit patterns -/

/-- The number with the given bit pattern; every NaN pattern gives the one NaN. -/
def ofBits (F : Format) (bits : Nat) : Binary F :=
  let code := bits % F.signBit
  if h : code ≤ F.top then .signed (bits / F.signBit % 2 == 1) ⟨code, h⟩ else .nan

/-- The bit pattern; NaN has the quiet pattern without sign. -/
def toBits : Binary F → Nat
  | .nan => F.top + F.hidden / 2
  | .signed negative m => (if negative then F.signBit else 0) + m.code

/-! ## Neighbours -/

/-- The opposite number. -/
def neg : Binary F → Binary F
  | .nan => .nan
  | .signed negative m => .signed (!negative) m

instance : Neg (Binary F) := ⟨neg⟩

/-- The least number above; positive infinity stays, and both zeros lead to the least positive
number. -/
def up : Binary F → Binary F
  | .nan => .nan
  | .signed false m => .signed false m.succ
  | .signed true m => if m.isZero then .signed false m.succ else .signed true m.pred

/-- The greatest number below, found by reflection. -/
def down (x : Binary F) : Binary F := -up (-x)

end Binary

/-- The greatest number below one.  Sampled coordinates are kept at or below it, so that they stay
inside the half-open unit interval. -/
def Single.belowOne : Single := (Binary.one : Single).down

end StepSampling
