import StepSampling.Proofs.Binary.Errors
import Mathlib.Algebra.Order.Field.Power

/-!
# Multiplying by a power of two

A power of two moves the exponent of a number and leaves its significand alone.  As long as neither side
is subnormal or infinite, rounding therefore commutes with it, ties included: the code of a number that
is twice as large is greater by the weight of the leading bit, which is even.

`IsScaled k x y` relates the numbers of two computations of which the second one works on `2 ^ k` times
the arguments of the first.  Sums keep the relation, and quotients of related numbers are the same.
-/

namespace StepSampling

namespace Format

variable (F : Format)

/-! ## Codes -/

theorem leastNormal_pos : 0 < F.leastNormal := div_pos F.hidden_cast_pos F.unity_cast_pos

theorem codeValue_hidden : F.codeValue F.hidden = F.leastNormal := by
  rw [codeValue, leastNormal, F.unitsOf_of_le _ (by omega)]

/-- Behind the subnormal codes, one more in the exponent doubles the value. -/
theorem codeValue_add_hidden {c : Nat} (hNormal : F.hidden ≤ c) :
    F.codeValue (c + F.hidden) = 2 * F.codeValue c := by
  obtain ⟨m, hLow, hHigh, hCode⟩ := F.exists_significand c hNormal
  generalize F.shiftOf c = s at hCode
  have hNext : c + F.hidden = (s + 1) * F.hidden + m := by
    rw [hCode]
    ring
  rw [codeValue, codeValue, hNext, hCode, F.unitsOf_shifted _ _ hLow hHigh.le,
    F.unitsOf_shifted _ _ hLow hHigh.le]
  push_cast
  ring

theorem hidden_le_nearestCode {q : ℚ} (hNormal : F.leastNormal ≤ q) :
    F.hidden ≤ F.nearestCode q := by
  have hCode := F.nearestCode_mono (F.codeValue_nonneg F.hidden) (F.codeValue_hidden.le.trans hNormal)
  rwa [nearestCode_codeValue] at hCode

/-- Rounding commutes with doubling. -/
theorem nearestCode_two_mul {q : ℚ} (hNormal : F.leastNormal ≤ q) :
    F.nearestCode (2 * q) = F.nearestCode q + F.hidden := by
  have hNonneg : 0 ≤ q := F.leastNormal_pos.le.trans hNormal
  have hLow := F.hidden_le_nearestCode hNormal
  have hDouble : F.hidden + F.hidden ≤ F.nearestCode (2 * q) := by
    have hCode := F.nearestCode_mono (F.codeValue_nonneg (F.hidden + F.hidden)) (r := 2 * q)
      (by rw [F.codeValue_add_hidden le_rfl, F.codeValue_hidden]; linarith)
    rwa [nearestCode_codeValue] at hCode
  -- both sides lie above the same codes: below the normal ones there is nothing to compare, and the
  -- thresholds between the others are doubled
  apply eq_of_forall_lt_iff
  intro d
  by_cases hBelow : d < F.hidden + F.hidden
  · constructor <;> intro <;> omega
  · obtain ⟨c, rfl⟩ : ∃ c, d = c + F.hidden := ⟨d - F.hidden, by omega⟩
    have hEven := F.two_dvd_hidden
    have hParity : (c + F.hidden) % 2 = 1 ↔ c % 2 = 1 := by omega
    rw [Nat.add_lt_add_iff_right, F.lt_nearestCode_iff _ (by linarith), F.lt_nearestCode_iff q hNonneg,
      Nat.add_right_comm, F.codeValue_add_hidden (by omega), F.codeValue_add_hidden (by omega), hParity,
      ← mul_add, mul_lt_mul_iff_right₀ two_pos, mul_right_inj' two_ne_zero]

/-- Rounding commutes with a power of two. -/
theorem codeValue_nearestCode_pow_mul (n : Nat) {q : ℚ} (hNormal : F.leastNormal ≤ q) :
    F.codeValue (F.nearestCode (2 ^ n * q)) = 2 ^ n * F.codeValue (F.nearestCode q) := by
  have hNonneg : 0 ≤ q := F.leastNormal_pos.le.trans hNormal
  induction n with
  | zero => simp
  | succ n ih =>
      have hStill : F.leastNormal ≤ 2 ^ n * q :=
        hNormal.trans (le_mul_of_one_le_left hNonneg (one_le_pow₀ one_le_two))
      rw [pow_succ', mul_assoc, F.nearestCode_two_mul hStill,
        F.codeValue_add_hidden (F.hidden_le_nearestCode hStill), ih, mul_assoc]

/-- The same with a whole exponent: of two numbers that are not subnormal, either one is a power of two
times the other. -/
theorem codeValue_nearestCode_zpow_mul (k : ℤ) {q : ℚ} (hNormal : F.leastNormal ≤ q)
    (hScaled : F.leastNormal ≤ 2 ^ k * q) :
    F.codeValue (F.nearestCode (2 ^ k * q)) = 2 ^ k * F.codeValue (F.nearestCode q) := by
  obtain ⟨n, rfl | rfl⟩ := k.eq_nat_or_neg
  · rw [zpow_natCast]
    exact F.codeValue_nearestCode_pow_mul n hNormal
  · have hBack := F.codeValue_nearestCode_pow_mul n hScaled
    rw [← mul_assoc, zpow_neg, zpow_natCast, mul_inv_cancel₀ (by positivity), one_mul] at hBack
    rw [hBack, ← mul_assoc, zpow_neg, zpow_natCast, inv_mul_cancel₀ (by positivity), one_mul]

end Format

namespace Binary

variable {F : Format} {x y : Binary F}

/-! ## Numbers -/

/-- The number times `2 ^ k`, rounded. -/
def timesTwoPow (k : ℤ) : Binary F → Binary F
  | .nan => .nan
  | .signed s m =>
    if m.isInfinite then .signed s m else .signed s (.ofDyadic F m.significand (m.shift + k))

theorem timesTwoPow_rounds (k : ℤ) (hx : x.isFinite = true) :
    (x.timesTwoPow k).Rounds (2 ^ k * x.value) := by
  match x with
  | .nan => cases hx
  | .signed s m =>
      have hm : m.isInfinite = false := by simpa [isFinite] using hx
      have hSign : (2 : ℚ) ^ k * (signed s m).value =
          if s then -(2 ^ k * F.codeValue m.code) else 2 ^ k * F.codeValue m.code := by
        cases s <;> simp
      rw [timesTwoPow, hm, if_neg Bool.false_ne_true, hSign]
      apply rounds_of_nonneg s (mul_nonneg (by positivity) (F.codeValue_nonneg _))
      rw [Magnitude.code_ofDyadic, m.codeValue_eq, zpow_add₀ two_ne_zero, zpow_natCast]
      congr 2
      ring

theorem negative_timesTwoPow (k : ℤ) (x : Binary F) : (x.timesTwoPow k).negative = x.negative := by
  match x with
  | .nan => rfl
  | .signed s m =>
      rw [timesTwoPow]
      split <;> rfl

/-- The second number is `2 ^ k` times the first, and both are zero or neither is subnormal. -/
structure IsScaled (k : ℤ) (x y : Binary F) : Prop where
  /-- The values have the ratio `2 ^ k`. -/
  value_eq : y.value = 2 ^ k * x.value
  /-- No number is subnormal. -/
  apart : x.value = 0 ∨ F.leastNormal ≤ x.value ∧ F.leastNormal ≤ y.value

/-- What is rounded from two rationals of the ratio `2 ^ k` has that ratio. -/
theorem Rounds.isScaled {k : ℤ} {q r : ℚ} (hx : x.Rounds q) (hy : y.Rounds r)
    (hxFinite : x.isFinite = true) (hyFinite : y.isFinite = true) (hRatio : r = 2 ^ k * q)
    (hApart : q = 0 ∨ F.leastNormal ≤ q ∧ F.leastNormal ≤ r) : IsScaled k x y := by
  subst hRatio
  rcases hApart with rfl | ⟨hNormal, hScaled⟩
  · rw [mul_zero] at hy
    have hxZero : x.value = 0 := by
      rw [← value_zero (F := F)] at hx ⊢
      exact hx.value_eq rfl
    have hyZero : y.value = 0 := by
      rw [← value_zero (F := F)] at hy ⊢
      exact hy.value_eq rfl
    exact ⟨by rw [hxZero, hyZero, mul_zero], .inl hxZero⟩
  · have hLeast := F.leastNormal_pos.le
    refine ⟨?_, .inr ⟨hx.leastNormal_le hNormal, hy.leastNormal_le hScaled⟩⟩
    rw [hx.value_eq_codeValue hxFinite (hLeast.trans hNormal),
      hy.value_eq_codeValue hyFinite (hLeast.trans hScaled),
      F.codeValue_nearestCode_zpow_mul k hNormal hScaled]

namespace IsScaled

variable {k : ℤ} {a b : Binary F}

theorem nonneg (h : IsScaled k x y) : 0 ≤ x.value := by
  rcases h.apart with hZero | ⟨hNormal, _⟩
  · exact hZero.ge
  · exact F.leastNormal_pos.le.trans hNormal

theorem pos_iff (h : IsScaled k x y) : 0 < y.value ↔ 0 < x.value := by
  rw [h.value_eq]
  exact mul_pos_iff_of_pos_left (by positivity)

theorem isZero_eq (h : IsScaled k x y) (hx : x.isNaN = false) (hy : y.isNaN = false) :
    y.isZero = x.isZero := by
  rw [Bool.eq_iff_iff, isZero_iff, isZero_iff, hx, hy, h.value_eq,
    mul_eq_zero_iff_left (zpow_ne_zero k two_ne_zero)]

/-- Sums of numbers in the ratio `2 ^ k` have that ratio. -/
theorem add (hFirst : IsScaled k x y) (hSecond : IsScaled k a b) (hx : x.isFinite = true)
    (hy : y.isFinite = true) (ha : a.isFinite = true) (hb : b.isFinite = true)
    (hxa : (x + a).isFinite = true) (hyb : (y + b).isFinite = true) : IsScaled k (x + a) (y + b) := by
  have hRatio : y.value + b.value = 2 ^ k * (x.value + a.value) := by
    rw [hFirst.value_eq, hSecond.value_eq, mul_add]
  apply (add_rounds x a hx ha).isScaled (add_rounds y b hy hb) hxa hyb hRatio
  have hxNonneg := hFirst.nonneg
  have haNonneg := hSecond.nonneg
  have hyNonneg : 0 ≤ y.value := by
    rw [hFirst.value_eq]
    positivity
  have hbNonneg : 0 ≤ b.value := by
    rw [hSecond.value_eq]
    positivity
  rcases hFirst.apart with hZero | ⟨hNormal, hNormal'⟩
  · rcases hSecond.apart with hNone | ⟨hLarge, hLarge'⟩
    · exact .inl (by rw [hZero, hNone, add_zero])
    · exact .inr ⟨by linarith, by linarith⟩
  · exact .inr ⟨by linarith, by linarith⟩

/-- Quotients of numbers in the ratio `2 ^ k` are the same. -/
theorem div_eq (hFirst : IsScaled k x y) (hSecond : IsScaled k a b) (hx : x.isFinite = true)
    (hy : y.isFinite = true) (ha : a.isFinite = true) (hb : b.isFinite = true)
    (hPos : 0 < a.value) (hSign : y.negative = x.negative) : y / b = x / a := by
  have hbPos : 0 < b.value := hSecond.pos_iff.mpr hPos
  have hLeft := div_rounds y b hy hb hbPos.ne'
  have hRight := div_rounds x a hx ha hPos.ne'
  rw [hFirst.value_eq, hSecond.value_eq, mul_div_mul_left _ _ (by positivity)] at hLeft
  apply eq_of_value hLeft.1 hRight.1
  · rw [negative_div_of_pos hy hb hbPos, negative_div_of_pos hx ha hPos, hSign]
  · rw [value, value, hLeft.2, hRight.2]

end IsScaled

end Binary

end StepSampling
