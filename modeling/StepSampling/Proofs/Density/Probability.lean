import StepSampling.Proofs.Density.Drift
import StepSampling.Proofs.Density.Queries
import Mathlib.Algebra.BigOperators.Group.Finset.Basic

/-!
# How accurate the probabilities are

The probability of a bin is its weight over the integral, over the number of bins.  The integral has
drifted from the exact mean of the weights by a rounding for each of them, and the two quotients are
rounded as well.  All of these errors are relative to the exact ratio of the weight to the sum of the
weights, up to a few units where a quotient is subnormal.

The exact ratios add up to one, so the probabilities add up to one but for the sum of the errors.
-/

namespace StepSampling.StepDensity

/-- A ratio `q` that is computed as `p = n * q` and then as `p / n`, when the first quotient is off
by as much as an integral of `n` weights allows. -/
private theorem two_quotients_error {n q p r : ℚ} (hOne : 1 ≤ n) (hq : 0 ≤ q)
    (hFirst : |p - n * q| ≤
      ((n + 5 / 2) / 2 ^ 24 + 1 / 2 ^ 24 * (1 + (n + 5 / 2) / 2 ^ 24)) * (n * q) + 1 / 2 ^ 150)
    (hSecond : |r - p / n| ≤ 1 / 2 ^ 24 * (p / n) + 1 / 2 ^ 150) :
    |r - q| ≤ (n + 2) / 2 ^ 23 * q + 1 / 2 ^ 148 := by
  have hPos : 0 < n := by linarith
  generalize hδ : (n + 5 / 2) / 2 ^ 24 + 1 / 2 ^ 24 * (1 + (n + 5 / 2) / 2 ^ 24) = δ at hFirst
  have hPart : |p / n - q| ≤ δ * q + 1 / 2 ^ 150 := by
    have hSplit : p / n - q = (p - n * q) / n := by
      field_simp
    rw [hSplit, abs_div, abs_of_pos hPos, div_le_iff₀ hPos]
    calc |p - n * q| ≤ δ * (n * q) + 1 / 2 ^ 150 := hFirst
      _ ≤ δ * (n * q) + 1 / 2 ^ 150 * n := by
          gcongr
          exact le_mul_of_one_le_right (by positivity) hOne
      _ = (δ * q + 1 / 2 ^ 150) * n := by ring
  have hFactor : 1 / 2 ^ 24 * (1 + δ) + δ ≤ (n + 2) / 2 ^ 23 := by
    rw [← hδ]
    linarith
  have hUpper : p / n ≤ (1 + δ) * q + 1 / 2 ^ 150 := by linarith [(abs_le.mp hPart).2]
  calc |r - q| ≤ |r - p / n| + |p / n - q| := abs_sub_le _ _ _
    _ ≤ 1 / 2 ^ 24 * ((1 + δ) * q + 1 / 2 ^ 150) + 1 / 2 ^ 150 + (δ * q + 1 / 2 ^ 150) := by linarith
    _ = (1 / 2 ^ 24 * (1 + δ) + δ) * q + (2 + 1 / 2 ^ 24) / 2 ^ 150 := by ring
    _ ≤ (n + 2) / 2 ^ 23 * q + 1 / 2 ^ 148 :=
        add_le_add (mul_le_mul_of_nonneg_right hFactor hq) (by norm_num)

section

variable {weights : List Single} {d : StepDensity} (hSmall : weights.length ≤ 2 ^ 20)
  (hBuild : build weights = .ok d) (hLarge : 1 / 2 ^ 100 ≤ d.integral.value)

include hSmall hBuild hLarge

/-- The density of a bin against the exact ratio of its weight to the mean. -/
theorem density_error {i : Nat} {w : Single} (hWeight : weights[i]? = some w) :
    d.density i = .ok (w / d.integral) ∧ (w / d.integral).IsDensity ∧
      |(w / d.integral).value - weights.length * (w.value / exactSum weights weights.length)| ≤
        ((weights.length + 5 / 2) / 2 ^ 24 +
          1 / 2 ^ 24 * (1 + (weights.length + 5 / 2) / 2 ^ 24)) *
            (weights.length * (w.value / exactSum weights weights.length)) + 1 / 2 ^ 150 := by
  obtain ⟨_, hWeights, hKept, _, hFinite, _⟩ := build_eq_ok hBuild
  obtain ⟨hw, hLow⟩ := w.isWeight_iff.mp (hWeights w (List.mem_of_getElem? hWeight))
  have hPos : 0 < d.integral.value := lt_of_lt_of_le (by positivity) hLarge
  have hIntegral := Binary.zero_lt_iff.mpr ⟨Binary.isNaN_of_isFinite hFinite, hPos⟩
  have hDensity : d.density i = .ok (w / d.integral) :=
    density_of_integral_pos hIntegral (by rw [hKept, List.getElem?_toArray, hWeight])
  obtain ⟨hp, _⟩ := density_range (by omega) hBuild hDensity
  have hLength : (0 : ℚ) < weights.length := Nat.cast_pos.mpr (length_pos_of_build hBuild)
  have hMean : 0 < exactSum weights weights.length / weights.length :=
    div_pos (exactSum_pos hSmall hBuild hLarge) hLength
  have hError := Single.div_error hw (Binary.value_nonneg_of_le hLow) hFinite hPos hMean
    (sum_error_le hSmall hBuild hLarge (getElem?_sums_integral hBuild)) hp.1
  have hRatio : w.value / (exactSum weights weights.length / weights.length) =
      weights.length * (w.value / exactSum weights weights.length) := by
    rw [div_div_eq_mul_div, mul_comm, mul_div_assoc]
  rw [hRatio] at hError
  exact ⟨hDensity, hp, hError⟩

/-- The probability of a bin against the exact ratio of its weight to the sum. -/
theorem probability_error {i : Nat} {w : Single} (hWeight : weights[i]? = some w) :
    ∃ p, d.probability i = .ok p ∧ p.isFinite = true ∧
      |p.value - w.value / exactSum weights weights.length| ≤
        (weights.length + 2) / 2 ^ 23 * (w.value / exactSum weights weights.length) +
          1 / 2 ^ 148 := by
  have hWord : weights.length < 2 ^ 64 := by omega
  have hPos := length_pos_of_build hBuild
  obtain ⟨_, hWeights, _, _, _, _⟩ := build_eq_ok hBuild
  obtain ⟨hIndex, _⟩ := List.getElem?_eq_some_iff.mp hWeight
  rw [← count_eq hBuild] at hIndex
  obtain ⟨hDensity, hp, hError⟩ := density_error hSmall hBuild hLarge hWeight
  obtain ⟨r, hProbability, hr⟩ := probability_of_lt hWord hBuild hIndex
  refine ⟨r, hProbability, hr.1, ?_⟩
  obtain rfl := Except.ok.inj ((probability_of_density hBuild hIndex hDensity).symm.trans hProbability)
  -- the number of weights is exact, so the second quotient is only rounded
  have hCount := Binary.value_ofNat_single (n := weights.length) (by omega)
  obtain ⟨hFinite, hOne⟩ := Binary.count_isFinite (F := .single) weights.length hPos hWord
  have hQuotient := Binary.div_rounds (w / d.integral) _ hp.1 hFinite (by linarith)
  rw [hCount] at hQuotient
  have hRatio : 0 ≤ w.value / exactSum weights weights.length :=
    div_nonneg (Binary.value_nonneg_of_le
      (w.isWeight_iff.mp (hWeights w (List.mem_of_getElem? hWeight))).2)
      (exactSum_pos hSmall hBuild hLarge).le
  exact two_quotients_error (Nat.one_le_cast.mpr hPos) hRatio hError
    (Single.error_le_add hQuotient hr.1
      (div_nonneg (Binary.value_nonneg_of_le hp.2) (Nat.cast_nonneg _)))

end

/-- **Accuracy of the probabilities.**  For up to `2 ^ 20` weights with an integral of at least
`2 ^ (-100)`, the probability of every bin differs from the exact ratio of its weight to the sum of the
weights by at most `(n + 2) * 2 ^ (-23)` of that ratio and `2 ^ (-148)`.  So the exact sum of the
probabilities differs from one by at most `(n + 2) * 2 ^ (-23) + n * 2 ^ (-148)`. -/
theorem probability_accurate (weights : List Single) (d : StepDensity)
    (hSmall : weights.length ≤ 2 ^ 20) (hBuild : build weights = .ok d)
    (hLarge : 1 / 2 ^ 100 ≤ d.integral.value) :
    0 < exactSum weights weights.length ∧ ∃ p : Nat → Single,
      (∀ i w, weights[i]? = some w → d.probability i = .ok (p i) ∧ (p i).isFinite = true ∧
        |(p i).value - w.value / exactSum weights weights.length| ≤
          (weights.length + 2) / 2 ^ 23 * (w.value / exactSum weights weights.length) +
            1 / 2 ^ 148) ∧
      |∑ i ∈ Finset.range weights.length, (p i).value - 1| ≤
        (weights.length + 2) / 2 ^ 23 + weights.length / 2 ^ 148 := by
  have hTotal := exactSum_pos hSmall hBuild hLarge
  refine ⟨hTotal, fun i => (d.probability i).toOption.getD .nan, ?_, ?_⟩
  · intro i w hWeight
    obtain ⟨p, hProbability, hRest⟩ := probability_error hSmall hBuild hLarge hWeight
    simp only [hProbability]
    exact ⟨rfl, hRest⟩
  · have hSum := abs_sub_le_of_steps
      (f := fun k => ∑ i ∈ Finset.range k, ((d.probability i).toOption.getD .nan).value)
      (g := fun k => exactSum weights k / exactSum weights weights.length)
      (e := fun k => (weights.length + 2) / 2 ^ 23 *
        (exactSum weights k / exactSum weights weights.length) + k / 2 ^ 148)
      (n := weights.length) (by simp) ?_ weights.length le_rfl
    · simpa [div_self hTotal.ne'] using hSum
    · intro k hk
      have hWeight : weights[k]? = some weights[k] := List.getElem?_eq_getElem hk
      obtain ⟨p, hProbability, _, hError⟩ := probability_error hSmall hBuild hLarge hWeight
      rw [Finset.sum_range_succ, exactSum_succ hWeight, hProbability, add_sub_cancel_left, add_div,
        add_sub_cancel_left]
      refine hError.trans (le_of_eq ?_)
      push_cast
      ring

/-- The least positive weight beside three: the ratios are bounded although its share is lost. -/
theorem probability_accurate_underflow :
    ∃ d p, build [.ofBits .single 1, .ofNat .single 3, .zero] = .ok d ∧
      d.probability 1 = .ok p ∧ |p.value - (Binary.ofNat .single 3).value /
        exactSum [.ofBits .single 1, .ofNat .single 3, .zero] 3| ≤
          (3 + 2) / 2 ^ 23 * ((Binary.ofNat .single 3).value /
            exactSum [.ofBits .single 1, .ofNat .single 3, .zero] 3) + 1 / 2 ^ 148 := by
  obtain ⟨d, hBuild, hIntegral⟩ :
      ∃ d, build [.ofBits .single 1, .ofNat .single 3, .zero] = .ok d ∧ d.integral = Binary.one :=
    ⟨_, rfl, by decide +kernel⟩
  obtain ⟨_, p, hProbabilities, _⟩ := probability_accurate _ d (by decide) hBuild
    (by rw [hIntegral, Binary.value_one]; norm_num)
  obtain ⟨hProbability, _, hError⟩ := hProbabilities 1 _ rfl
  exact ⟨d, p 1, hBuild, hProbability, hError⟩

end StepSampling.StepDensity
