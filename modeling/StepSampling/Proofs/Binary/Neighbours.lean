import StepSampling.Proofs.Binary.Operations

/-!
# Neighbouring numbers

A step up or down moves the key by one and stops at the infinities, so no number lies strictly between
a number and its neighbour.
-/

namespace StepSampling

namespace Binary

variable {F : Format}

theorem up_signed_true {m : Magnitude F} (hCode : m.code ≠ 0) :
    (signed true m).up = signed true m.pred :=
  if_neg (by simp [Magnitude.isZero, hCode])

theorem down_signed_false {m : Magnitude F} (hCode : m.code ≠ 0) :
    (signed false m).down = signed false m.pred := by
  show -(signed true m).up = _
  rw [up_signed_true hCode]
  rfl

theorem key_up (x : Binary F) (hNumber : x.isNaN = false) :
    x.up.key = min (x.key + 1) F.top := by
  match x with
  | .nan => cases hNumber
  | .signed false m =>
      have hTop := m.code_le_top
      show ((min (m.code + 1) F.top : Nat) : Int) = min ((m.code : Int) + 1) F.top
      omega
  | .signed true m =>
      have hTop := m.code_le_top
      have hHidden := F.hidden_lt_top
      show (signed true m).up.key = min (-(m.code : Int) + 1) F.top
      by_cases hZero : m.code = 0
      · rw [up, if_pos (by simp [Magnitude.isZero, hZero])]
        show ((min (m.code + 1) F.top : Nat) : Int) = _
        omega
      · rw [up_signed_true hZero]
        show -((min (m.code - 1) F.top : Nat) : Int) = _
        omega

theorem isNaN_up (x : Binary F) : x.up.isNaN = x.isNaN := by
  match x with
  | .nan => rfl
  | .signed false m => rfl
  | .signed true m =>
      show (if m.isZero then signed false m.succ else signed true m.pred).isNaN = false
      cases m.isZero <;> rfl

theorem key_down (x : Binary F) (hNumber : x.isNaN = false) :
    x.down.key = max (x.key - 1) (-F.top) := by
  rw [down, key_neg, key_up (-x) (by rwa [isNaN_neg]), key_neg]
  omega

theorem isNaN_down (x : Binary F) : x.down.isNaN = x.isNaN := by
  rw [down, isNaN_neg, isNaN_up, isNaN_neg]

/-- A step up is undone by the step down. -/
theorem key_down_up {x : Binary F} (hNumber : x.isNaN = false) (hRoom : x.key < F.top) :
    x.up.down.key = x.key := by
  have hLow := neg_top_le_key x
  rw [key_down x.up (by rw [isNaN_up, hNumber]), key_up x hNumber]
  omega

/-- A step down is undone by the step up. -/
theorem key_up_down {x : Binary F} (hNumber : x.isNaN = false) (hRoom : -(F.top : Int) < x.key) :
    x.down.up.key = x.key := by
  have hHigh := key_le_top x
  rw [key_up x.down (by rw [isNaN_down, hNumber]), key_down x hNumber]
  omega

/-- The number above a number that is not negative has the next code. -/
theorem value_up_of_key {x : Binary F} (hNumber : x.isNaN = false) {c : Nat} (hKey : x.key = c)
    (hRoom : c < F.top) : x.up.value = F.codeValue (c + 1) := by
  have hUp : x.up.key = ((c + 1 : Nat) : Int) := by
    rw [key_up x hNumber, hKey]
    omega
  rw [value, hUp, F.keyValue_natCast]

/-- The value of a number whose code is given by its shift and its significand. -/
theorem value_of_shifted {x : Binary F} {s m : Nat} (hKey : x.key = (s * F.hidden + m : Nat))
    (hLow : F.hidden ≤ m) (hHigh : m ≤ 2 * F.hidden) : x.value = m * 2 ^ s / F.unity := by
  rw [value, hKey, F.keyValue_natCast, Format.codeValue, F.unitsOf_shifted s m hLow hHigh]
  push_cast
  rfl

end Binary

/-! ## Below one -/

namespace Single

theorem key_belowOne : belowOne.key = (Binary.one : Single).key - 1 := by decide

theorem value_belowOne : belowOne.value = 1 - 1 / 2 ^ 24 := by
  have hKey : belowOne.key = ((125 * Format.single.hidden + (2 ^ 24 - 1) : Nat) : Int) := by decide
  rw [Binary.value_of_shifted hKey (by decide) (by decide)]
  norm_num [Format.unity_eq, Format.scale]

end Single

end StepSampling
