import StepSampling.Proofs.Density.Cumulative

/-!
# Weights against their integral

The share of a weight is at most the integral, so a weight exceeds a positive integral by little more
than the number of weights, and its density cannot overflow.  This holds down to the least positive
numbers, where a share may have been rounded to zero.

The integral of zeros is zero, and that of a single weight is the weight.
-/

namespace StepSampling.StepDensity

variable {weights : List Single} {d : StepDensity}

theorem share_le_integral (hWord : weights.length < 2 ^ 64) (hBuild : build weights = .ok d)
    {w : Single} (hMem : w ∈ weights) :
    (w / Binary.ofNat .single weights.length).value ≤ d.integral.value := by
  obtain ⟨_, hWeights, _, _, _, _⟩ := build_eq_ok hBuild
  obtain ⟨hCount, hOne⟩ := count_range hWord hBuild
  obtain ⟨_, hShareFinite⟩ := share_nonneg hCount hOne (hWeights w hMem)
  obtain ⟨i, hWeight⟩ := List.mem_iff_getElem?.mp hMem
  obtain ⟨hIndex, _⟩ := List.getElem?_eq_some_iff.mp hWeight
  obtain ⟨s, hSum⟩ := exists_sum hIndex.le
  obtain ⟨hLow, _, hsFinite⟩ := sum_of_build hWord hBuild hSum
  obtain ⟨_, hNextHigh, _⟩ := sum_of_build hWord hBuild (sums_succ hSum hWeight)
  have hAdded := Binary.add_rounds s _ hsFinite hShareFinite
  have hsNonneg := Binary.value_nonneg_of_le hLow
  exact (hAdded.le_value (Binary.isNaN_of_isFinite hShareFinite) (by linarith)).trans
    (Binary.value_le_of_le hNextHigh)

/-- A weight exceeds a positive number that is not below the integral by little more than the number
of weights. -/
theorem weight_le_of_integral_le (hWord : weights.length < 2 ^ 64) (hBuild : build weights = .ok d)
    {y : Single} (hLe : d.integral.value ≤ y.value) (hPos : 0 < y.value) {w : Single}
    (hMem : w ∈ weights) :
    w.value ≤ 3 * y.value * (Binary.ofNat .single weights.length).value := by
  obtain ⟨_, hWeights, _, _, _, _⟩ := build_eq_ok hBuild
  obtain ⟨hCount, hOne⟩ := count_range hWord hBuild
  obtain ⟨hNonneg, hShare⟩ := share_rounds hCount hOne (hWeights w hMem)
  have hShareFinite := (share_nonneg hCount hOne (hWeights w hMem)).2
  have hQuotient := hShare.le_three_mul hShareFinite hNonneg
    ((share_le_integral hWord hBuild hMem).trans hLe) hPos
  rwa [div_le_iff₀ (by linarith)] at hQuotient

/-- The bound by the number of weights itself. -/
theorem weight_le_mul_length (hWord : weights.length < 2 ^ 64) (hBuild : build weights = .ok d)
    {y : Single} (hLe : d.integral.value ≤ y.value) (hPos : 0 < y.value) {w : Single}
    (hMem : w ∈ weights) : w.value ≤ 6 * y.value * weights.length := by
  have hLength : 1 ≤ weights.length := List.length_pos_of_mem hMem
  have hBound := weight_le_of_integral_le hWord hBuild hLe hPos hMem
  have hCount := Binary.value_count_le (F := .single) weights.length hLength hWord
  calc w.value ≤ 3 * y.value * (Binary.ofNat .single weights.length).value := hBound
    _ ≤ 3 * y.value * (2 * weights.length) := mul_le_mul_of_nonneg_left hCount (by linarith)
    _ = 6 * y.value * weights.length := by ring

theorem integral_of_zeros (hWord : weights.length < 2 ^ 64) (hBuild : build weights = .ok d)
    (hZeros : ∀ w ∈ weights, w.isZero = true) : d.integral = Binary.zero := by
  obtain ⟨hCount, hOne⟩ := count_range hWord hBuild
  exact runningSums_of_zeros hCount hOne (Binary.le_refl rfl) rfl hZeros _
    (List.mem_of_getElem? (getElem?_sums_integral hBuild))

/-- The integral of a single weight is that weight. -/
theorem integral_of_single {w : Single} (hBuild : build [w] = .ok d) :
    d.integral.value = w.value := by
  obtain ⟨_, hWeights, _, hIntegral, _, _⟩ := build_eq_ok hBuild
  obtain ⟨hw, hLow⟩ := w.isWeight_iff.mp (hWeights w List.mem_cons_self)
  have hOne : (1 : ℚ) ≤ (Binary.one : Single).value := Binary.value_one.ge
  have hShare := Binary.div_rounds w Binary.one hw Binary.isFinite_one (by linarith)
  obtain ⟨_, hShareFinite⟩ :=
    share_nonneg Binary.isFinite_one hOne (hWeights w List.mem_cons_self)
  rw [Binary.value_one, div_one] at hShare
  have hValue := hShare.value_eq hLow.2.1
  have hSum := Binary.add_rounds Binary.zero (w / Binary.one) Binary.isFinite_zero hShareFinite
  rw [Binary.value_zero, zero_add] at hSum
  rw [hIntegral]
  exact (hSum.value_eq hShare.1).trans hValue

/-- The ratio of a weight to a positive integral, for up to `2 ^ 23` weights. -/
theorem ratio_le (hSmall : weights.length ≤ 2 ^ 23) (hBuild : build weights = .ok d)
    (hPos : 0 < d.integral.value) {w : Single} (hMem : w ∈ weights) :
    w.value / d.integral.value ≤ 2 ^ 25 := by
  have hBound := weight_le_of_integral_le (by omega) hBuild le_rfl hPos hMem
  rw [Binary.value_ofNat_single (by omega)] at hBound
  have hCount : (weights.length : ℚ) ≤ 2 ^ 23 := by exact_mod_cast hSmall
  rw [div_le_iff₀ hPos]
  nlinarith

end StepSampling.StepDensity
