import StepSampling.Proofs.Binary.Operations

/-!
# Numbers that are not negative

The sums and quotients of a density start from positive zero and stay on the positive side.  A number
is then determined by its value, and adding or dividing keeps the order.
-/

namespace StepSampling.Binary

variable {F : Format} {x y z : Binary F}

/-! ## Order -/

protected theorem le_refl (hx : x.isNaN = false) : x ≤ x := ⟨hx, hx, Int.le_refl _⟩

protected theorem le_trans (hxy : x ≤ y) (hyz : y ≤ z) : x ≤ z :=
  ⟨hxy.1, hyz.2.1, Int.le_trans hxy.2.2 hyz.2.2⟩

/-- Numbers other than NaN can be compared. -/
protected theorem lt_of_not_le (hx : x.isNaN = false) (hy : y.isNaN = false) (hNot : ¬y ≤ x) :
    x < y := by
  refine ⟨hx, hy, ?_⟩
  by_contra hKey
  exact hNot ⟨hy, hx, Int.not_lt.mp hKey⟩

protected theorem le_of_not_lt (hx : x.isNaN = false) (hy : y.isNaN = false) (hNot : ¬x < y) :
    y ≤ x := by
  refine ⟨hy, hx, ?_⟩
  by_contra hKey
  exact hNot ⟨hx, hy, Int.not_le.mp hKey⟩

theorem value_le_of_le (hLe : x ≤ y) : x.value ≤ y.value := (le_iff_value.mp hLe).2.2

theorem value_nonneg_of_le (hLe : zero ≤ x) : 0 ≤ x.value := by
  have hValue := value_le_of_le hLe
  rwa [value_zero] at hValue

theorem zero_le_iff : zero ≤ x ↔ x.isNaN = false ∧ 0 ≤ x.value := by
  rw [le_iff_value, value_zero]
  exact ⟨fun h => h.2, fun h => ⟨rfl, h⟩⟩

theorem zero_lt_iff : zero < x ↔ x.isNaN = false ∧ 0 < x.value := by
  rw [lt_iff_value, value_zero]
  exact ⟨fun h => h.2, fun h => ⟨rfl, h⟩⟩

theorem key_nonneg_iff : 0 ≤ x.key ↔ 0 ≤ x.value := by
  rw [value, ← F.keyValue_zero, F.keyValue_strictMono.le_iff_le]

theorem key_nonpos_iff : x.key ≤ 0 ↔ x.value ≤ 0 := by
  rw [value, ← F.keyValue_zero, F.keyValue_strictMono.le_iff_le]

theorem key_pos_iff : 0 < x.key ↔ 0 < x.value := by
  rw [← not_le, key_nonpos_iff, not_le]

/-- A number that is not negative has a code for its key. -/
theorem exists_code (hNonneg : 0 ≤ x.value) : ∃ c : Nat, x.key = c ∧ x.value = F.codeValue c := by
  obtain ⟨c, hKey⟩ := Int.eq_ofNat_of_zero_le (key_nonneg_iff.mpr hNonneg)
  exact ⟨c, hKey, by rw [value, hKey, F.keyValue_natCast]⟩

/-- What lies between zero and a finite number is finite. -/
theorem isFinite_of_le (hLow : zero ≤ x) (hLe : x ≤ y) (hFinite : y.isFinite = true) :
    x.isFinite = true := by
  have hTop := ((isFinite_iff y).mp hFinite).2
  have hSign := key_nonneg_iff.mpr (value_nonneg_of_le hLow)
  have hKey := hLe.2.2
  exact (isFinite_iff x).mpr ⟨hLe.1, by omega⟩

theorem isFinite_of_value_le (hx : x.isNaN = false) (hLow : 0 ≤ x.value)
    (hHigh : x.value ≤ 2 ^ 100) : x.isFinite = true := (rounds_value x hx).isFinite hLow hHigh

/-! ## Signs -/

theorem eq_of_value (hx : x.isNaN = false) (hy : y.isNaN = false) (hSign : x.negative = y.negative)
    (hValue : x.value = y.value) : x = y := by
  have hKey := value_eq_iff_key.mp hValue
  match x, y with
  | .nan, _ => cases hx
  | .signed _ _, .nan => cases hy
  | .signed s a, .signed t b =>
      obtain rfl : s = t := hSign
      have hCode : a.code = b.code := by
        cases s with
        | false => exact Int.ofNat.inj hKey
        | true => exact Int.ofNat.inj (Int.neg_inj.mp hKey)
      rw [Magnitude.eq_of_code hCode]

/-- A positive value shows the sign. -/
theorem negative_of_pos (hPos : 0 < x.value) : x.negative = false := by
  match x with
  | .nan => rfl
  | .signed false _ => rfl
  | .signed true m =>
      rw [value_signed_true] at hPos
      have hNonneg := F.codeValue_nonneg m.code
      linarith

/-- A quotient by a positive number keeps the sign, also that of a zero. -/
theorem negative_div_of_pos (hx : x.isFinite = true) (hy : y.isFinite = true) (hPos : 0 < y.value) :
    (x / y).negative = x.negative := by
  match x, y with
  | .nan, _ => cases hx
  | .signed _ _, .nan => cases hy
  | .signed s a, .signed t b =>
      obtain rfl : t = false := negative_of_pos hPos
      have ha : a.isInfinite = false := by simpa [isFinite] using hx
      have hb : b.isInfinite = false := by simpa [isFinite] using hy
      have hZero : b.isZero = false := by
        by_contra hZero
        have hValue := ((isZero_iff (.signed false b)).mp (Bool.not_eq_false _ ▸ hZero)).2
        linarith
      show (div (.signed s a) (.signed false b)).negative = s
      rw [div, ha, hb, hZero]
      exact Bool.xor_false s

theorem isFinite_zero : (zero : Binary F).isFinite = true := by
  cases F <;> decide

theorem isFinite_one : (one : Binary F).isFinite = true :=
  isFinite_of_value_le rfl (by rw [value_one]; norm_num) (by rw [value_one]; norm_num)

/-! ## Sums -/

/-- There is one number without sign beyond the finite ones. -/
theorem eq_infinity (hNumber : x.isNaN = false) (hSign : x.negative = false)
    (hInfinite : ¬x.isFinite = true) : x = infinity := by
  match x with
  | .nan => cases hNumber
  | .signed s m =>
      obtain rfl : s = false := hSign
      have hCode : m.code = F.top := by simpa [isFinite, Magnitude.isInfinite] using hInfinite
      cases m
      cases hCode
      rfl

/-- An infinity stays what it is when a finite number is added. -/
theorem add_of_infinite (hNumber : x.isNaN = false) (hInfinite : ¬x.isFinite = true)
    (hFinite : y.isFinite = true) : x + y = x := by
  match x, y with
  | .nan, _ => cases hNumber
  | .signed _ _, .nan => cases hFinite
  | .signed s a, .signed t b =>
      have ha : a.isInfinite = true := by simpa [isFinite] using hInfinite
      have hb : b.isInfinite = false := by simpa [isFinite] using hFinite
      show add (.signed s a) (.signed t b) = _
      rw [add, if_pos ha, hb]
      rfl

/-- A number without sign plus a number that is not negative is at least as large, and has no
sign. -/
theorem le_add (hx : zero ≤ x) (hSign : x.negative = false) (hy : zero ≤ y)
    (hFinite : y.isFinite = true) : x ≤ x + y ∧ (x + y).negative = false := by
  obtain ⟨hxNumber, hxValue⟩ := zero_le_iff.mp hx
  have hyValue := (zero_le_iff.mp hy).2
  by_cases hCase : x.isFinite = true
  · have hSum := add_rounds x y hCase hFinite
    have hLe : x.value ≤ (x + y).value := hSum.le_value hxNumber (by linarith)
    exact ⟨le_iff_value.mpr ⟨hxNumber, hSum.1, hLe⟩,
      negative_add x y hCase hFinite hSign (by linarith)⟩
  · rw [add_of_infinite hxNumber hCase hFinite]
    exact ⟨Binary.le_refl hxNumber, hSign⟩

/-- Adding a zero changes nothing. -/
theorem add_of_value_zero (hx : zero ≤ x) (hSign : x.negative = false) (hFinite : y.isFinite = true)
    (hZero : y.value = 0) : x + y = x := by
  obtain ⟨hxNumber, hxValue⟩ := zero_le_iff.mp hx
  by_cases hCase : x.isFinite = true
  · have hSum := add_rounds x y hCase hFinite
    rw [hZero, add_zero] at hSum
    have hNegative := negative_add x y hCase hFinite hSign (by rw [hZero, add_zero]; exact hxValue)
    exact eq_of_value hSum.1 hxNumber (hNegative.trans hSign.symm) (hSum.value_eq hxNumber)
  · exact add_of_infinite hxNumber hCase hFinite

/-! ## Products and quotients -/

/-- One is neutral. -/
theorem mul_one_eq (hx : x.isFinite = true) : x * one = x := by
  have hNumber := isNaN_of_isFinite hx
  have hProduct := mul_rounds x one hx isFinite_one
  rw [value_one, mul_one] at hProduct
  have hSign : (x * one).negative = x.negative := by
    rw [negative_mul x one hx isFinite_one]
    exact Bool.xor_false x.negative
  exact eq_of_value hProduct.1 hNumber hSign (hProduct.value_eq hNumber)

/-- Dividing by a positive number keeps the order. -/
theorem div_mono (hxy : x ≤ y) (hx : x.isFinite = true) (hy : y.isFinite = true)
    (hz : z.isFinite = true) (hPos : 0 < z.value) : x / z ≤ y / z := by
  have hLeft := div_rounds x z hx hz hPos.ne'
  have hRight := div_rounds y z hy hz hPos.ne'
  refine le_iff_value.mpr ⟨hLeft.1, hRight.1, ?_⟩
  exact hLeft.value_mono hRight (div_le_div_of_nonneg_right (value_le_of_le hxy) hPos.le)

/-- The quotient by a positive number is exactly one only for a number of the same value. -/
theorem div_eq_one_iff (hx : zero ≤ x) (hxFinite : x.isFinite = true) (hy : y.isFinite = true)
    (hPos : 0 < y.value) : x / y = one ↔ x.value = y.value := by
  have hQuotient := div_rounds x y hxFinite hy hPos.ne'
  constructor
  · intro hOne
    rw [hOne] at hQuotient
    by_contra hNe
    obtain ⟨a, _, ha⟩ := exists_code (value_nonneg_of_le hx)
    obtain ⟨b, _, hb⟩ := exists_code hPos.le
    obtain ⟨o, hKey, ho⟩ := exists_code (x := (one : Binary F)) (by rw [value_one]; norm_num)
    rw [value_one] at ho
    rw [hb] at hPos
    apply F.nearestCode_quotient_ne ho.symm hPos (a := a)
    · rintro rfl
      exact hNe (ha.trans hb.symm)
    · have hTop := ((isFinite_iff (one : Binary F)).mp isFinite_one).2
      have hNearest := hQuotient.2
      rw [ha, hb, F.nearestKey_of_nonneg (div_nonneg (F.codeValue_nonneg a) hPos.le), hKey] at hNearest
      omega
  · intro hValue
    have hSame := div_rounds x y hxFinite hy hPos.ne'
    rw [hValue, div_self hPos.ne', ← value_one (F := F)] at hSame
    exact eq_of_value hSame.1 rfl
      (negative_div x y (negative_of_pos (hValue ▸ hPos)) (negative_of_pos hPos)) (hSame.value_eq rfl)

/-- A positive number divided by itself is exactly one. -/
theorem div_self_eq_one (hx : x.isFinite = true) (hPos : 0 < x.value) : x / x = one :=
  (div_eq_one_iff (zero_le_iff.mpr ⟨isNaN_of_isFinite hx, hPos.le⟩) hx hx hPos).mpr rfl

/-- Positive zero divided by a positive number is positive zero. -/
theorem zero_div_eq_zero (hx : x.isFinite = true) (hPos : 0 < x.value) : zero / x = zero := by
  have hQuotient := div_rounds zero x isFinite_zero hx hPos.ne'
  rw [value_zero, zero_div, ← value_zero (F := F)] at hQuotient
  exact eq_of_value hQuotient.1 rfl (negative_div zero x rfl (negative_of_pos hPos))
    (hQuotient.value_eq rfl)

/-! ## Underflow -/

/-- No positive number lies below one unit. -/
theorem unit_le_value (hPos : 0 < x.value) : 1 / F.unity ≤ x.value := by
  have hKey : ((1 : Nat) : Int) ≤ x.key := by
    have hKeyPos := key_pos_iff.mpr hPos
    omega
  have hValue := F.keyValue_strictMono.monotone hKey
  rwa [F.keyValue_natCast, Format.codeValue,
    F.unitsOf_of_le 1 (by have hHidden := F.hidden_pos; omega), Nat.cast_one] at hValue

/-- Rounding loses at most a small factor against any positive number, even in underflow. -/
theorem Rounds.le_three_mul {q : ℚ} (hx : x.Rounds q) (hFinite : x.isFinite = true)
    (hNonneg : 0 ≤ q) (hLe : x.value ≤ y.value) (hPos : 0 < y.value) : q ≤ 3 * y.value := by
  have hUnity := F.unity_cast_pos
  have hHidden : (1 : ℚ) ≤ F.hidden := Nat.one_le_cast.mpr F.hidden_pos
  have hError := (abs_le.mp (hx.error_le hFinite)).1
  rw [abs_of_nonneg hNonneg] at hError
  have hUnit := unit_le_value hPos
  have hMax : max q F.leastNormal / (2 * F.hidden) ≤ q / 2 + 1 / F.unity / 2 := by
    have hSum : max q F.leastNormal ≤ q + F.leastNormal := by
      have hNormal : 0 ≤ F.leastNormal := div_nonneg (Nat.cast_nonneg _) hUnity.le
      exact max_le (by linarith) (by linarith)
    have hFirst : q / (2 * F.hidden) ≤ q / 2 :=
      div_le_div_of_nonneg_left hNonneg (by norm_num) (by linarith)
    have hSecond : F.leastNormal / (2 * F.hidden) = 1 / F.unity / 2 := by
      rw [Format.leastNormal]
      field_simp
    calc max q F.leastNormal / (2 * F.hidden)
        ≤ (q + F.leastNormal) / (2 * F.hidden) :=
          div_le_div_of_nonneg_right hSum (by linarith)
      _ = q / (2 * F.hidden) + F.leastNormal / (2 * F.hidden) := add_div _ _ _
      _ ≤ q / 2 + 1 / F.unity / 2 := by linarith
  linarith

/-- Rounding at most doubles what is bounded by a number of at least one. -/
theorem Rounds.value_le_two_mul {q b : ℚ} (hx : x.Rounds q) (hFinite : x.isFinite = true)
    (hNonneg : 0 ≤ q) (hLe : q ≤ b) (hOne : 1 ≤ b) : x.value ≤ 2 * b := by
  have hHidden : (1 : ℚ) ≤ F.hidden := Nat.one_le_cast.mpr F.hidden_pos
  have hError := (abs_le.mp (hx.error_le hFinite)).2
  rw [abs_of_nonneg hNonneg] at hError
  have hBound : max q F.leastNormal / (2 * F.hidden) ≤ b := by
    rw [div_le_iff₀ (by linarith)]
    exact (max_le hLe (F.leastNormal_lt_one.le.trans hOne)).trans (le_mul_of_one_le_right (by linarith)
      (by linarith))
  linarith

/-! ## Counts -/

/-- A positive word as a number: finite, and at least one. -/
theorem count_isFinite (n : Nat) (hPos : 1 ≤ n) (hWord : n < 2 ^ 64) :
    (ofNat F n).isFinite = true ∧ 1 ≤ (ofNat F n).value := by
  have hRounds := ofNat_rounds (F := F) n
  constructor
  · apply hRounds.isFinite (Nat.cast_nonneg n)
    exact_mod_cast (by omega : n ≤ 2 ^ 100)
  · rw [← value_one (F := F)]
    apply hRounds.le_value rfl
    rw [value_one]
    exact_mod_cast hPos

/-- A positive word is at most doubled when it becomes a number. -/
theorem value_count_le (n : Nat) (hPos : 1 ≤ n) (hWord : n < 2 ^ 64) :
    (ofNat F n).value ≤ 2 * n :=
  (ofNat_rounds n).value_le_two_mul (count_isFinite n hPos hWord).1 (Nat.cast_nonneg n) le_rfl
    (Nat.one_le_cast.mpr hPos)

end StepSampling.Binary
