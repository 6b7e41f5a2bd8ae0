import StepSampling.Binary.Rounding

/-!
# Magnitudes

A magnitude is a number without its sign: a code between zero and the code of infinity.  Rounding
into a magnitude saturates at infinity, which is what overflow means when ties go to even.
-/

namespace StepSampling

/-- An unsigned number of the format: zero, subnormal, normal or infinite. -/
structure Magnitude (F : Format) where
  /-- The bit pattern without the sign bit. -/
  code : Nat
  /-- No pattern above infinity denotes a number. -/
  code_le_top : code ≤ F.top
  deriving DecidableEq, Repr

namespace Magnitude

variable {F : Format}

/-- The magnitude with the given code, infinity if the code is too large. -/
def ofCode (F : Format) (code : Nat) : Magnitude F :=
  ⟨min code F.top, Nat.min_le_right code F.top⟩

/-- Zero. -/
def zero : Magnitude F := ⟨0, Nat.zero_le F.top⟩

/-- Infinity. -/
def infinity : Magnitude F := ⟨F.top, Nat.le_refl F.top⟩

/-- Whether the magnitude is zero. -/
def isZero (m : Magnitude F) : Bool := m.code == 0

/-- Whether the magnitude is infinite. -/
def isInfinite (m : Magnitude F) : Bool := m.code == F.top

/-- The significand of a finite magnitude. -/
def significand (m : Magnitude F) : Nat := F.significandOf m.code

/-- The shift of a finite magnitude: its value is the significand times two to the shift. -/
def shift (m : Magnitude F) : Nat := F.shiftOf m.code

/-- The exact value of a finite magnitude in units of `2 ^ (-scale)`. -/
def units (m : Magnitude F) : Nat := F.unitsOf m.code

/-- The magnitude nearest to `num / den` units, a half going to the even code. -/
def ofQuotient (F : Format) (num den : Nat) : Magnitude F := ofCode F (F.roundQuotient num den)

/-- The magnitude nearest to `m * 2 ^ e` units, a half going to the even code. -/
def ofDyadic (F : Format) (m : Nat) (e : Int) : Magnitude F := ofCode F (F.roundDyadic m e)

/-- The next larger magnitude; infinity has none and stays. -/
def succ (m : Magnitude F) : Magnitude F := ofCode F (m.code + 1)

/-- The next smaller magnitude; zero has none and stays. -/
def pred (m : Magnitude F) : Magnitude F := ofCode F (m.code - 1)

end Magnitude

end StepSampling
