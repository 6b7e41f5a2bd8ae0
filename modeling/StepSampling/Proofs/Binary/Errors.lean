import StepSampling.Proofs.Binary.Nonnegative

/-!
# Rounding errors

Rounding to the format of 32 bits has the relative error `2 ^ (-24)`, as long as the result is not
subnormal.  Sums and differences have that relative error without exception: they are whole numbers
of units, and such a number is a value of the format as soon as it is subnormal.  The error can be
taken relative to the exact result or to the rounded one.
-/

namespace StepSampling

/-- The error of rounding is at most half the spacing at the result, or at the least normal value if
that is larger. -/
theorem Format.nearestCode_error_code (F : Format) (q : ℚ) (hNonneg : 0 ≤ q) :
    |F.codeValue (F.nearestCode q) - q| ≤
      max (F.codeValue (F.nearestCode q)) F.leastNormal / (2 * F.hidden) := by
  have hHidden := F.hidden_cast_pos
  have hAbove := F.lt_nearestCode_iff q hNonneg (F.nearestCode q)
  generalize hCode : F.nearestCode q = c at hAbove ⊢
  have hHalf : max (F.codeValue c) F.leastNormal / (2 * F.hidden) =
      max (F.codeValue c) F.leastNormal / F.hidden / 2 := by
    rw [mul_comm, div_div]
  rw [hHalf, abs_le]
  constructor
  · have hUpper : 2 * q ≤ F.codeValue c + F.codeValue (c + 1) := by
      by_contra hNot
      exact lt_irrefl c (hAbove.mpr (Or.inl (not_le.mp hNot)))
    have hSpacing := F.spacing_le c
    rw [F.codeValue_succ] at hUpper
    linarith
  · cases c with
    | zero =>
        have hBound : 0 ≤ max (F.codeValue 0) F.leastNormal / F.hidden :=
          div_nonneg (le_max_of_le_left (F.codeValue_nonneg 0)) hHidden.le
        rw [F.codeValue_zero] at hBound ⊢
        linarith
    | succ d =>
        have hLower : F.codeValue d + F.codeValue (d + 1) ≤ 2 * q := by
          rcases (F.lt_nearestCode_iff q hNonneg d).mp (by omega) with hBeyond | ⟨hMiddle, _⟩
          · exact hBeyond.le
          · exact hMiddle.le
        have hOrder : F.codeValue d ≤ F.codeValue (d + 1) :=
          F.codeValue_strictMono.monotone (Nat.le_succ d)
        have hSpacing : F.codeValue (d + 1) - F.codeValue d ≤
            max (F.codeValue (d + 1)) F.leastNormal / F.hidden := by
          calc F.codeValue (d + 1) - F.codeValue d = 2 ^ F.shiftOf d / F.unity := by
                rw [F.codeValue_succ, add_sub_cancel_left]
            _ ≤ max (F.codeValue d) F.leastNormal / F.hidden := F.spacing_le d
            _ ≤ max (F.codeValue (d + 1)) F.leastNormal / F.hidden :=
                div_le_div_of_nonneg_right (max_le_max_right _ hOrder) hHidden.le
        linarith

namespace Binary

variable {F : Format}

/-- A finite number is the value of the nearest code. -/
theorem Rounds.value_eq_codeValue {x : Binary F} {q : ℚ} (hx : x.Rounds q)
    (hFinite : x.isFinite = true) (hNonneg : 0 ≤ q) :
    x.value = F.codeValue (F.nearestCode q) := by
  have hKey := hx.2
  rw [F.nearestKey_of_nonneg hNonneg] at hKey
  have hTop := ((isFinite_iff x).mp hFinite).2
  have hCode : min (F.nearestCode q) F.top = F.nearestCode q := by omega
  rw [value, hKey, hCode, F.keyValue_natCast]

/-- The error of rounding to a finite number, relative to that number. -/
theorem Rounds.error_le_value {x : Binary F} {q : ℚ} (hx : x.Rounds q) (hFinite : x.isFinite = true)
    (hNonneg : 0 ≤ q) : |x.value - q| ≤ max x.value F.leastNormal / (2 * F.hidden) := by
  rw [hx.value_eq_codeValue hFinite hNonneg]
  exact F.nearestCode_error_code q hNonneg

/-- What is not subnormal is not rounded to a subnormal number. -/
theorem Rounds.leastNormal_le {x : Binary F} {q : ℚ} (hx : x.Rounds q) (hNormal : F.leastNormal ≤ q) :
    F.leastNormal ≤ x.value := by
  obtain ⟨z, hz, hLeast⟩ := exists_value_eq F F.hidden 0 (by omega) (Nat.zero_le _)
  rw [pow_zero, mul_one, ← Format.leastNormal] at hLeast
  rw [← hLeast] at hNormal ⊢
  exact hx.le_value (isNaN_of_isFinite hz) hNormal

/-- Every value is a whole number of units. -/
theorem exists_units (x : Binary F) : ∃ m : ℤ, x.value = m / F.unity := by
  refine ⟨x.key.sign * F.unitsOf x.key.natAbs, ?_⟩
  rw [value, Format.keyValue, Format.codeValue]
  push_cast
  ring

/-- A small number of units is not changed by rounding. -/
theorem Rounds.value_eq_units {x : Binary F} {m : Nat} (hx : x.Rounds (m / F.unity))
    (hSmall : m ≤ 2 * F.hidden) : x.value = m / F.unity := by
  obtain ⟨y, hFinite, hValue⟩ := exists_value_eq F m 0 hSmall (Nat.zero_le _)
  rw [pow_zero, mul_one] at hValue
  rw [← hValue] at hx ⊢
  exact hx.value_eq (isNaN_of_isFinite hFinite)

end Binary

namespace Single

theorem leastNormal_eq : Format.single.leastNormal = 1 / 2 ^ 126 := by
  norm_num [Format.leastNormal, Format.hidden, Format.unity_eq, Format.scale]

/-- The error of rounding to the format of 32 bits. -/
theorem error_le {x : Single} {q : ℚ} (hx : x.Rounds q) (hFinite : x.isFinite = true) :
    |x.value - q| ≤ 1 / 2 ^ 24 * max |q| (1 / 2 ^ 126) := by
  have hError := hx.error_le hFinite
  rw [leastNormal_eq] at hError
  refine hError.trans (le_of_eq ?_)
  generalize max |q| (1 / 2 ^ 126) = m
  norm_num [Format.hidden]
  ring

/-- The error of rounding what is not negative: a relative one, and half a unit for what is
subnormal. -/
theorem error_le_add {x : Single} {q : ℚ} (hx : x.Rounds q) (hFinite : x.isFinite = true)
    (hNonneg : 0 ≤ q) : |x.value - q| ≤ 1 / 2 ^ 24 * q + 1 / 2 ^ 150 := by
  have hError := error_le hx hFinite
  rw [abs_of_nonneg hNonneg] at hError
  calc |x.value - q| ≤ 1 / 2 ^ 24 * max q (1 / 2 ^ 126) := hError
    _ ≤ 1 / 2 ^ 24 * (q + 1 / 2 ^ 126) := by
        gcongr
        exact max_le_add_of_nonneg hNonneg (by positivity)
    _ = 1 / 2 ^ 24 * q + 1 / 2 ^ 150 := by ring

/-- The relative error of rounding to a number that is not subnormal. -/
theorem relative_error {x : Single} {q : ℚ} (hx : x.Rounds q) (hFinite : x.isFinite = true)
    (hNormal : 1 / 2 ^ 126 ≤ q) : |x.value - q| ≤ 1 / 2 ^ 24 * q := by
  have hNonneg : 0 ≤ q := le_trans (by positivity) hNormal
  have hError := error_le hx hFinite
  rwa [abs_of_nonneg hNonneg, max_eq_left hNormal] at hError

/-- The error of rounding what is bounded by a number of at least one. -/
theorem error_le_of_le {x : Single} {q b : ℚ} (hx : x.Rounds q) (hFinite : x.isFinite = true)
    (hNonneg : 0 ≤ q) (hLe : q ≤ b) (hOne : 1 ≤ b) : |x.value - q| ≤ 1 / 2 ^ 24 * b := by
  have hMax : max |q| (1 / 2 ^ 126) ≤ b := by
    rw [abs_of_nonneg hNonneg]
    exact max_le hLe (le_trans (by norm_num) hOne)
  exact (error_le hx hFinite).trans (mul_le_mul_of_nonneg_left hMax (by positivity))

/-- A quotient against the one by `m`, when the divisor is off from `m` by a fraction `ε` of itself. -/
theorem div_error {w y : Single} {m ε : ℚ} (hw : w.isFinite = true) (hNonneg : 0 ≤ w.value)
    (hy : y.isFinite = true) (hPos : 0 < y.value) (hm : 0 < m) (hOff : |y.value - m| ≤ ε * y.value)
    (hFinite : (w / y).isFinite = true) :
    |(w / y).value - w.value / m| ≤ (ε + 1 / 2 ^ 24 * (1 + ε)) * (w.value / m) + 1 / 2 ^ 150 := by
  have hRatio : 0 ≤ w.value / m := div_nonneg hNonneg hm.le
  have hExact : |w.value / y.value - w.value / m| ≤ ε * (w.value / m) := by
    have hSplit : w.value / y.value - w.value / m = -(w.value / m * ((y.value - m) / y.value)) := by
      field_simp
      ring
    rw [hSplit, abs_neg, abs_mul, abs_of_nonneg hRatio, abs_div, abs_of_pos hPos, mul_comm]
    exact mul_le_mul_of_nonneg_right ((div_le_iff₀ hPos).mpr hOff) hRatio
  have hRounding := error_le_add (Binary.div_rounds w y hw hy hPos.ne') hFinite
    (div_nonneg hNonneg hPos.le)
  have hUpper : w.value / y.value ≤ (1 + ε) * (w.value / m) := by linarith [(abs_le.mp hExact).2]
  calc |(w / y).value - w.value / m|
      ≤ |(w / y).value - w.value / y.value| + |w.value / y.value - w.value / m| := abs_sub_le _ _ _
    _ ≤ 1 / 2 ^ 24 * ((1 + ε) * (w.value / m)) + 1 / 2 ^ 150 + ε * (w.value / m) := by linarith
    _ = (ε + 1 / 2 ^ 24 * (1 + ε)) * (w.value / m) + 1 / 2 ^ 150 := by ring

/-- A subnormal sum is exact. -/
theorem add_of_subnormal {x y : Single} (hx : x.isFinite = true) (hy : y.isFinite = true)
    (hNonneg : 0 ≤ x.value + y.value) (hSmall : x.value + y.value < 1 / 2 ^ 126) :
    (x + y).value = x.value + y.value := by
  have hUnity := Format.unity_cast_pos .single
  have hRounds := Binary.add_rounds x y hx hy
  obtain ⟨a, ha⟩ := x.exists_units
  obtain ⟨b, hb⟩ := y.exists_units
  have hUnits : x.value + y.value = ((a + b : ℤ) : ℚ) / Format.single.unity := by
    rw [ha, hb, Int.cast_add, add_div]
  obtain ⟨m, hm⟩ : ∃ m : Nat, a + b = m := by
    apply Int.eq_ofNat_of_zero_le
    rw [hUnits, le_div_iff₀ hUnity, zero_mul] at hNonneg
    exact_mod_cast hNonneg
  rw [hm, Int.cast_natCast] at hUnits
  have hFew : m < Format.single.hidden := by
    rw [hUnits, ← leastNormal_eq, Format.leastNormal, div_lt_div_iff_of_pos_right hUnity] at hSmall
    exact_mod_cast hSmall
  rw [hUnits] at hRounds ⊢
  exact hRounds.value_eq_units (by omega)

/-- The error of a sum relative to the sum, subnormal sums included. -/
theorem add_error {x y : Single} (hx : x.isFinite = true) (hy : y.isFinite = true)
    (hNonneg : 0 ≤ x.value + y.value) (hFinite : (x + y).isFinite = true) :
    |(x + y).value - (x.value + y.value)| ≤ 1 / 2 ^ 24 * (x + y).value := by
  have hRounds := Binary.add_rounds x y hx hy
  rcases lt_or_ge (x.value + y.value) (1 / 2 ^ 126) with hSubnormal | hNormal
  · have hExact := add_of_subnormal hx hy hNonneg hSubnormal
    rw [hExact, sub_self, abs_zero]
    exact mul_nonneg (by positivity) hNonneg
  · have hLarge : 1 / 2 ^ 126 ≤ (x + y).value := by
      rw [← leastNormal_eq] at hNormal ⊢
      exact hRounds.leastNormal_le hNormal
    have hError := hRounds.error_le_value hFinite hNonneg
    rw [leastNormal_eq, max_eq_left hLarge] at hError
    norm_num [Format.hidden] at hError ⊢
    linarith

/-- The relative error of a difference, subnormal differences included. -/
theorem sub_error {x y : Single} (hx : x.isFinite = true) (hy : y.isFinite = true)
    (hLe : y.value ≤ x.value) (hFinite : (x - y).isFinite = true) :
    |(x - y).value - (x.value - y.value)| ≤ 1 / 2 ^ 24 * (x.value - y.value) := by
  rcases le_or_gt (1 / 2 ^ 126) (x.value - y.value) with hNormal | hSubnormal
  · exact relative_error (Binary.sub_rounds x y hx hy) hFinite hNormal
  · have hExact : (x - y).value = x.value - y.value := by
      rw [sub_eq_add_neg, ← Binary.value_neg] at hSubnormal ⊢
      apply add_of_subnormal hx (by rwa [Binary.isFinite_neg]) ?_ hSubnormal
      rw [Binary.value_neg]
      linarith
    rw [hExact, sub_self, abs_zero]
    exact mul_nonneg (by positivity) (sub_nonneg.mpr hLe)

end Single

end StepSampling
