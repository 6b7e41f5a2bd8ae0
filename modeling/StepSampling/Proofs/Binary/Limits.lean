import StepSampling.Proofs.Binary.Errors

/-!
# The ends of the range

Where rounding gives zero and where it gives infinity is known exactly.  A rational that is not
negative rounds to zero up to half of the least positive number, the half included, since zero is
even; it rounds to infinity from the middle between the greatest number and the value that would
follow it, the middle included, since the code of the greatest number is odd.

In between, a number is the nearest one, and different numbers are not closer to each other than
the precision allows.
-/

namespace StepSampling

namespace Format

variable (F : Format)

/-- Half of the least positive value and less is rounded to the code zero. -/
theorem nearestCode_pos_iff {q : ℚ} (hNonneg : 0 ≤ q) :
    0 < F.nearestCode q ↔ 1 / (2 * F.unity) < q := by
  have hUnit : F.codeValue (0 + 1) = 1 / F.unity := by
    rw [codeValue, F.unitsOf_of_le _ (by have hHidden := F.hidden_pos; omega)]
    norm_num
  have hHalf : (1 : ℚ) / (2 * F.unity) = 1 / F.unity / 2 := by rw [div_div, mul_comm]
  rw [F.lt_nearestCode_iff q hNonneg, F.codeValue_zero, zero_add, hUnit, hHalf]
  constructor
  · rintro (hBeyond | ⟨_, hOdd⟩)
    · linarith
    · cases hOdd
  · intro hBeyond
    left
    linarith

/-- The value that follows the greatest number, where infinity stands. -/
theorem codeValue_top : F.codeValue F.top = 2 ^ 2 ^ (F.exponentBits - 1) := by
  have hTop : F.top = (2 ^ F.exponentBits - 2) * F.hidden + F.hidden := by cases F <;> decide
  have hShift : F.fractionBits + (2 ^ F.exponentBits - 2) = 2 ^ (F.exponentBits - 1) + F.scale := by
    cases F <;> decide
  rw [codeValue, unity_cast, div_eq_iff (by positivity), ← pow_add, ← hShift, pow_add, hTop,
    F.unitsOf_shifted _ _ (Nat.le_refl _) (by omega), F.hidden_eq]
  push_cast
  rfl

/-- What is at least as large is rounded to infinity or beyond. -/
theorem top_le_nearestCode {q : ℚ} (hLarge : 2 ^ 2 ^ (F.exponentBits - 1) ≤ q) :
    F.top ≤ F.nearestCode q := by
  rw [← F.nearestCode_codeValue F.top]
  exact F.nearestCode_mono (F.codeValue_nonneg _) (F.codeValue_top ▸ hLarge)

end Format

namespace Binary

variable {F : Format} {x y : Binary F} {q : ℚ}

/-- The code of what is not negative, rounded. -/
theorem Rounds.key_eq (hx : x.Rounds q) (hNonneg : 0 ≤ q) :
    x.key = (min (F.nearestCode q) F.top : Nat) := by
  rw [hx.2, F.nearestKey_of_nonneg hNonneg]

/-! ## Underflow -/

/-- Up to half a unit there is only zero. -/
theorem Rounds.pos_iff (hx : x.Rounds q) (hNonneg : 0 ≤ q) :
    0 < x.value ↔ 1 / (2 * F.unity) < q := by
  have hTop := F.hidden_lt_top
  rw [← key_pos_iff, hx.key_eq hNonneg, ← F.nearestCode_pos_iff hNonneg]
  omega

/-- What does not vanish has grown at most threefold by rounding. -/
theorem Rounds.value_le_three_mul (hx : x.Rounds q) (hFinite : x.isFinite = true)
    (hNonneg : 0 ≤ q) : x.value ≤ 3 * q := by
  rcases (hx.value_nonneg hNonneg).eq_or_lt with hZero | hPos
  · rw [← hZero]
    linarith
  · have hUnity := F.unity_cast_pos
    have hHidden : (1 : ℚ) ≤ F.hidden := Nat.one_le_cast.mpr F.hidden_pos
    have hLarge := (hx.pos_iff hNonneg).mp hPos
    have hError := (abs_le.mp (hx.error_le hFinite)).2
    rw [abs_of_nonneg hNonneg] at hError
    have hMax : max q F.leastNormal / (2 * F.hidden) ≤ 2 * q := by
      rw [div_le_iff₀ (by linarith)]
      apply max_le
      · nlinarith
      · rw [Format.leastNormal]
        calc (F.hidden : ℚ) / F.unity = 2 * F.hidden * (1 / (2 * F.unity)) := by field_simp
          _ ≤ 2 * F.hidden * (2 * q) := by gcongr; linarith
          _ = 2 * q * (2 * F.hidden) := by ring
    linarith

/-! ## Nearness -/

/-- Rounding up leads no further than it is to any number below. -/
theorem Rounds.add_le_two_mul (hx : x.Rounds q) (hNonneg : 0 ≤ y.value) (hLe : y.value ≤ q) :
    x.value + y.value ≤ 2 * q := by
  rcases le_or_gt x.value y.value with hBelow | hAbove
  · linarith
  · obtain ⟨b, hyKey, hb⟩ := exists_code hNonneg
    obtain ⟨c, hxKey, hc⟩ := exists_code (hNonneg.trans hAbove.le)
    rw [hb, hc, F.codeValue_strictMono.lt_iff_lt] at hAbove
    obtain ⟨e, rfl⟩ : ∃ e, c = e + 1 := ⟨c - 1, by omega⟩
    have hKey := hx.key_eq (hNonneg.trans hLe)
    have hOrder : F.codeValue b ≤ F.codeValue e := F.codeValue_strictMono.monotone (by omega)
    have hMiddle : F.codeValue e + F.codeValue (e + 1) ≤ 2 * q := by
      rcases (F.lt_nearestCode_iff q (hNonneg.trans hLe) e).mp (by omega) with hBeyond | ⟨hTie, _⟩
      · exact hBeyond.le
      · exact hTie.le
    linarith

/-- Two numbers differ by at least the precision of the greater one. -/
theorem value_le_mul_sub (hNonneg : 0 ≤ x.value) (hLt : x.value < y.value) :
    y.value ≤ 2 * F.hidden * (y.value - x.value) := by
  obtain ⟨a, _, ha⟩ := exists_code hNonneg
  obtain ⟨b, _, hb⟩ := exists_code (hNonneg.trans hLt.le)
  rw [ha, hb, F.codeValue_strictMono.lt_iff_lt] at hLt
  obtain ⟨e, rfl⟩ : ∃ e, b = e + 1 := ⟨b - 1, by omega⟩
  have hOrder : F.codeValue a ≤ F.codeValue e := F.codeValue_strictMono.monotone (by omega)
  have hSpacing : (2 : ℚ) ^ F.shiftOf e / F.unity ≤ F.codeValue (e + 1) - F.codeValue a := by
    rw [F.codeValue_succ]
    linarith
  rw [ha, hb]
  exact (F.codeValue_succ_le e).trans
    (mul_le_mul_of_nonneg_left hSpacing (mul_nonneg (by norm_num) F.hidden_cast_pos.le))

end Binary

namespace Single

variable {x y : Single} {q : ℚ}

theorem pos_iff (hx : x.Rounds q) (hNonneg : 0 ≤ q) : 0 < x.value ↔ 1 / 2 ^ 150 < q := by
  have hHalf : 1 / (2 * (Format.single.unity : ℚ)) = 1 / 2 ^ 150 := by
    rw [Format.unity_cast, Format.scale, ← pow_succ']
  rw [hx.pos_iff hNonneg, hHalf]

/-- The same in the order of the numbers. -/
theorem zero_lt_iff_of_rounds (hx : x.Rounds q) (hNonneg : 0 ≤ q) :
    Binary.zero < x ↔ 1 / 2 ^ 150 < q := by
  rw [Binary.zero_lt_iff, and_iff_right hx.1, pos_iff hx hNonneg]

/-! ## Overflow -/

/-- The greatest finite number. -/
def greatest : Single := Binary.infinity.down

theorem key_greatest : greatest.key = (0x7f7fffff : Nat) := by decide

theorem codeValue_greatest : Format.single.codeValue 0x7f7fffff = 2 ^ 128 - 2 ^ 104 := by
  have hUnits : Format.single.unitsOf 0x7f7fffff = (2 ^ 24 - 1) * 2 ^ 253 := by decide +kernel
  rw [Format.codeValue, hUnits, Format.unity_cast, Format.scale]
  norm_num

theorem codeValue_infinity : Format.single.codeValue (0x7f7fffff + 1) = 2 ^ 128 :=
  Format.single.codeValue_top

theorem value_greatest : greatest.value = 2 ^ 128 - 2 ^ 104 := by
  rw [Binary.value, key_greatest, Format.keyValue_natCast, codeValue_greatest]

theorem value_le_greatest (hFinite : x.isFinite = true) : x.value ≤ greatest.value := by
  have hTop := ((Binary.isFinite_iff x).mp hFinite).2
  rw [Binary.value_le_iff_key, key_greatest]
  rw [Format.top] at hTop
  omega

/-- Rounding stays finite below the middle between the greatest number and what would follow it. -/
theorem isFinite_iff_lt (hx : x.Rounds q) (hNonneg : 0 ≤ q) :
    x.isFinite = true ↔ q < 2 ^ 128 - 2 ^ 103 := by
  have hCode : x.isFinite = true ↔ ¬0x7f7fffff < Format.single.nearestCode q := by
    rw [Binary.isFinite_iff, and_iff_right hx.1, hx.key_eq hNonneg, Int.natAbs_natCast, Format.top]
    omega
  have hMiddle : Format.single.codeValue 0x7f7fffff + Format.single.codeValue (0x7f7fffff + 1) =
      2 * (2 ^ 128 - 2 ^ 103) := by
    rw [codeValue_greatest, codeValue_infinity]
    norm_num
  rw [hCode, Format.single.lt_nearestCode_iff q hNonneg, hMiddle]
  constructor
  · intro hNot
    by_contra hLarge
    rcases (not_lt.mp hLarge).eq_or_lt with hTie | hLarger
    · exact hNot (Or.inr ⟨by rw [hTie], rfl⟩)
    · exact hNot (Or.inl (by linarith))
  · rintro hSmall (hLarge | ⟨hTie, _⟩) <;> linarith

/-- A positive word is at most halved when it becomes a number. -/
theorem le_twice_count {n : Nat} (hPos : 1 ≤ n) (hWord : n < 2 ^ 64) :
    (n : ℚ) ≤ 2 * (Binary.ofNat .single n).value := by
  have hFinite := (Binary.count_isFinite (F := .single) n hPos hWord).1
  have hError := (abs_le.mp (error_le_of_le (Binary.ofNat_rounds n) hFinite (Nat.cast_nonneg n) le_rfl
    (Nat.one_le_cast.mpr hPos))).1
  have hNonneg : (0 : ℚ) ≤ n := Nat.cast_nonneg n
  linarith

/-- Two numbers of 32 bits differ by at least `2 ^ (-24)` of the greater one. -/
theorem value_le_sub (hNonneg : 0 ≤ x.value) (hLt : x.value < y.value) :
    y.value ≤ 2 ^ 24 * (y.value - x.value) := by
  have hGap := Binary.value_le_mul_sub hNonneg hLt
  norm_num [Format.hidden] at hGap ⊢
  exact hGap

end Single

end StepSampling
