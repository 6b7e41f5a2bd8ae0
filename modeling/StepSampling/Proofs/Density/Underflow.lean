import StepSampling.Proofs.Density.Drift
import StepSampling.Proofs.Density.Queries

/-!
# Weights lost to underflow

The integral is zero if and only if every share has been rounded to zero.  That takes weights up to
half of the least positive number, times the number of weights, so a density may be taken as uniform
although some of its weights are positive.

A bin that is selected has a positive weight, and the running sum has moved over it.  The sum moves only
if the share is not too small against it, which bounds the ratio of the selected weight to the integral
from below as long as the variate is not tiny.  For tiny variates nothing is left of the bound, and the
density of the selected bin may be rounded to zero.
-/

namespace StepSampling.StepDensity

/-! ## The integral -/

section

variable {weights : List Single} {d : StepDensity} (hWord : weights.length < 2 ^ 64)
  (hBuild : build weights = .ok d)

include hWord hBuild

/-- A share vanishes up to half a unit, the half included. -/
theorem share_eq_zero_iff {w : Single} (hMem : w ∈ weights) :
    (w / Binary.ofNat .single weights.length).value = 0 ↔
      w.value ≤ (Binary.ofNat .single weights.length).value / 2 ^ 150 := by
  obtain ⟨_, hWeights, _, _, _, _⟩ := build_eq_ok hBuild
  obtain ⟨hCount, hOne⟩ := count_range hWord hBuild
  obtain ⟨hQuotient, hShare⟩ := share_rounds hCount hOne (hWeights w hMem)
  have hNonneg := hShare.value_nonneg hQuotient
  have hPos := Single.pos_iff hShare hQuotient
  rw [← not_lt, ← hNonneg.not_lt_iff_eq', not_iff_not, hPos, lt_div_iff₀ (by linarith),
    div_mul_eq_mul_div, one_mul]

/-- The integral is at most twice the exact sum of the shares. -/
theorem integral_le_twice :
    d.integral.value ≤ 2 * exactSum (shares weights) weights.length := by
  obtain ⟨hNonempty, hWeights, _, _, hFinite, _⟩ := build_eq_ok hBuild
  exact sums_le_twice hNonempty hWord hWeights (getElem?_sums_integral hBuild) hFinite

omit hWord in
theorem isUniform_iff : d.isUniform = true ↔ d.integral.value = 0 := by
  obtain ⟨_, _, _, _, hFinite, _⟩ := build_eq_ok hBuild
  rw [isUniform, Binary.isZero_iff, and_iff_right (Binary.isNaN_of_isFinite hFinite)]

/-- The integral is zero when all shares are, and only then. -/
theorem isUniform_iff_shares : d.isUniform = true ↔ ∀ q ∈ shares weights, q.value = 0 := by
  obtain ⟨hNonempty, hWeights, _, _, _, _⟩ := build_eq_ok hBuild
  have hNonneg := Binary.value_nonneg_of_le (integral_nonneg hWord hBuild)
  rw [isUniform_iff hBuild]
  constructor
  · intro hZero q hMem
    obtain ⟨hLow, _⟩ := share_range hNonempty hWord hWeights hMem
    obtain ⟨w, hw, rfl⟩ := List.mem_map.mp hMem
    have hHigh := share_le_integral hWord hBuild hw
    linarith
  · intro hZeros
    have hTwice := integral_le_twice hWord hBuild
    have hNone := exactSum_le_mul le_rfl (fun q hq => (hZeros q hq).le) weights.length
    linarith

omit hWord in
/-- A single weight is its own integral, so nothing is lost. -/
theorem isUniform_iff_of_single (hSingle : weights.length = 1) :
    d.isUniform = true ↔ ∀ w ∈ weights, w.isZero = true := by
  obtain ⟨w, rfl⟩ := List.length_eq_one_iff.mp hSingle
  obtain ⟨_, hWeights, _, _, _, _⟩ := build_eq_ok hBuild
  have hNumber := Binary.isNaN_of_isFinite
    (w.isWeight_iff.mp (hWeights w List.mem_cons_self)).1
  rw [isUniform_iff hBuild, integral_of_single hBuild, List.forall_mem_singleton, Binary.isZero_iff,
    and_iff_right hNumber]

end

/-- **When the bins are taken as equally likely.**  Exactly if no weight exceeds `n * 2 ^ (-150)`, where
`n` is the number of weights rounded to a number of 32 bits.  Zeros are among these weights, and they
are the only ones if there is a single weight, or if every weight is zero or above that bound. -/
theorem isUniform_iff_vanish (weights : List Single) (d : StepDensity)
    (hWord : weights.length < 2 ^ 64) (hBuild : build weights = .ok d) :
    (d.isUniform = true ↔
      ∀ w ∈ weights, w.value ≤ (Binary.ofNat .single weights.length).value / 2 ^ 150) ∧
    ((∀ w ∈ weights, w.isZero = true) → d.isUniform = true) ∧
    (weights.length = 1 ∨ (∀ w ∈ weights, w.isZero = true ∨
        (Binary.ofNat .single weights.length).value / 2 ^ 150 < w.value) →
      (d.isUniform = true ↔ ∀ w ∈ weights, w.isZero = true)) := by
  have hVanish : d.isUniform = true ↔
      ∀ w ∈ weights, w.value ≤ (Binary.ofNat .single weights.length).value / 2 ^ 150 := by
    rw [isUniform_iff_shares hWord hBuild, shares, List.forall_mem_map]
    exact forall₂_congr fun w hMem => share_eq_zero_iff hWord hBuild hMem
  have hZero : (∀ w ∈ weights, w.isZero = true) → d.isUniform = true := by
    intro hZeros
    rw [isUniform, integral_of_zeros hWord hBuild hZeros]
    rfl
  refine ⟨hVanish, hZero, ?_⟩
  rintro (hSingle | hApart)
  · exact isUniform_iff_of_single hBuild hSingle
  · refine ⟨fun hUniform w hMem => ?_, hZero⟩
    have hSmall := hVanish.mp hUniform w hMem
    exact (hApart w hMem).resolve_right (not_lt.mpr hSmall)

/-- One is above the bound for three weights, and the bins are not equally likely. -/
theorem isUniform_iff_vanish_one :
    ∃ d, build [.zero, .one, .zero] = .ok d ∧ d.isUniform = false := by
  refine ⟨_, rfl, ?_⟩
  obtain ⟨hVanish, _, _⟩ := isUniform_iff_vanish [.zero, .one, .zero] _ (by decide) rfl
  rw [← Bool.not_eq_true, hVanish]
  intro hSmall
  have hOne := hSmall .one (by simp)
  rw [Binary.value_one, Binary.value_ofNat_single (by decide)] at hOne
  norm_num at hOne

/-- The least positive weight before a zero: its half is rounded to zero, the bins are taken as equally
likely, and the log says that the function is zero. -/
theorem isUniform_lost :
    ∃ d, build [.ofBits .single 1, .zero] = .ok d ∧ d.isUniform = true ∧
      ⟨.debug, "Function is zero over all 2 bins; sampling it uniformly"⟩ ∈ d.records ∧
      ¬∀ w ∈ ([.ofBits .single 1, .zero] : List Single), w.isZero = true := by
  refine ⟨_, rfl, ?_⟩
  decide +kernel

/-! ## The selected weight -/

section

variable {weights : List Single} {d : StepDensity} (hWord : weights.length < 2 ^ 64)
  (hBuild : build weights = .ok d)

include hWord hBuild

/-- A variate selects a bin over which the sum moves, so the share of the bin is not far below the sum
behind it, and the sum over the integral is above the variate. -/
theorem variate_le_share (hNonzero : d.isUniform = false) {u : Single} (hLow : Binary.zero ≤ u)
    (hHigh : u < Binary.one) {k : Nat} (hBin : d.bin u = .ok k) {w : Single}
    (hWeight : weights[k]? = some w) :
    u.value * d.integral.value ≤ 2 ^ 25 * (w / Binary.ofNat .single weights.length).value := by
  obtain ⟨hNonempty, hWeights, _, _, hFinite, _⟩ := build_eq_ok hBuild
  have hPos := integral_pos hWord hBuild hNonzero
  obtain ⟨hIndex, _⟩ := List.getElem?_eq_some_iff.mp hWeight
  obtain ⟨t, hNext⟩ := exists_sum (show k + 1 ≤ weights.length from hIndex)
  obtain ⟨_, _, htFinite⟩ := sum_of_build hWord hBuild hNext
  obtain ⟨s, q, hSum, hShare, hAdded, hsFinite, hqFinite, hs, hq, _⟩ :=
    step_of_finite hNonempty hWord hWeights hNext htFinite
  obtain rfl : q = w / Binary.ofNat .single weights.length :=
    Option.some.inj (hShare.symm.trans (getElem?_shares hWeight))
  -- the two entries around the variate are the quotients of the two sums
  obtain ⟨low, high, hLowEntry, hHighEntry, hAbove, hBelow⟩ :=
    bin_brackets (cdf_isCumulative hWord hBuild) (length_pos_of_build hBuild) hLow hHigh hBin
  rw [cdf_eq_quotient hWord hBuild hNonzero hSum, Option.some.injEq] at hLowEntry
  rw [cdf_eq_quotient hWord hBuild hNonzero hNext, Option.some.injEq] at hHighEntry
  subst hLowEntry hHighEntry
  obtain ⟨_, huNumber, hAbove⟩ := Binary.le_iff_value.mp hAbove
  obtain ⟨_, _, hBelow⟩ := Binary.lt_iff_value.mp hBelow
  have hLeft := Binary.div_rounds s d.integral hsFinite hFinite hPos.ne'
  have hRight := Binary.div_rounds t d.integral htFinite hFinite hPos.ne'
  have hMoved : s.value < t.value := by
    by_contra hNot
    have hOrder := hRight.value_mono hLeft
      (div_le_div_of_nonneg_right (not_lt.mp hNot) hPos.le)
    linarith
  have hReached : u.value ≤ t.value / d.integral.value := by
    by_contra hNot
    have hOrder := hRight.value_le huNumber (not_le.mp hNot).le
    linarith
  have hGap := Single.value_le_sub hs hMoved
  have hStep : t.value + s.value ≤
      2 * (s.value + (w / Binary.ofNat .single weights.length).value) := by
    rw [hAdded]
    exact (Binary.add_rounds s _ hsFinite hqFinite).add_le_two_mul hs (by linarith)
  rw [le_div_iff₀ hPos] at hReached
  linarith

/-- The same for the weight itself. -/
theorem variate_le_ratio (hNonzero : d.isUniform = false) {u : Single} (hLow : Binary.zero ≤ u)
    (hHigh : u < Binary.one) {k : Nat} (hBin : d.bin u = .ok k) {w : Single}
    (hWeight : weights[k]? = some w) :
    u.value ≤ 3 * 2 ^ 25 *
      (w.value / d.integral.value / (Binary.ofNat .single weights.length).value) := by
  obtain ⟨hNonempty, hWeights, _, _, _, _⟩ := build_eq_ok hBuild
  obtain ⟨hCount, hOne⟩ := count_range hWord hBuild
  have hMem := List.mem_of_getElem? hWeight
  obtain ⟨hw, hwLow⟩ := w.isWeight_iff.mp (hWeights w hMem)
  have hPos := integral_pos hWord hBuild hNonzero
  have hShare := (Binary.div_rounds w _ hw hCount (by linarith)).value_le_three_mul
    (share_range hNonempty hWord hWeights (List.mem_map_of_mem hMem)).2
    (div_nonneg (Binary.value_nonneg_of_le hwLow) (by linarith))
  have hReached := variate_le_share hWord hBuild hNonzero hLow hHigh hBin hWeight
  rw [div_right_comm, ← mul_div_assoc, le_div_iff₀ hPos]
  linarith

/-- A weight against the integral of weights that do not exceed it too far. -/
theorem inv_le_ratio (hNonzero : d.isUniform = false) {w : Single} (hPos : 0 < w.value)
    (hSpan : ∀ v ∈ weights, v.value ≤ 2 ^ 80 * w.value) :
    1 / (12 * 2 ^ 144) ≤
      w.value / d.integral.value / (Binary.ofNat .single weights.length).value := by
  obtain ⟨hNonempty, hWeights, _, _, _, _⟩ := build_eq_ok hBuild
  obtain ⟨_, hOne⟩ := count_range hWord hBuild
  have hCount := Binary.value_ofNat_le (F := .single) weights.length hWord.le
  have hIntegral := integral_pos hWord hBuild hNonzero
  have hBound : d.integral.value ≤ 12 * 2 ^ 80 * w.value := by
    have hTwice := integral_le_twice hWord hBuild
    have hShares := exactSum_shares_le hNonempty hWord hWeights hSpan le_rfl
    linarith
  rw [div_div, div_le_div_iff₀ (by positivity) (mul_pos hIntegral (by linarith)), one_mul]
  calc d.integral.value * (Binary.ofNat .single weights.length).value
      ≤ 12 * 2 ^ 80 * w.value * 2 ^ 64 := by gcongr
    _ = w.value * (12 * 2 ^ 144) := by ring

/-- Outside the uniform case the density of a bin is its weight over the integral. -/
theorem density_of_weight (hNonzero : d.isUniform = false) {k : Nat} {w : Single}
    (hWeight : weights[k]? = some w) : d.density k = .ok (w / d.integral) := by
  obtain ⟨_, _, hKept, _, hFinite, _⟩ := build_eq_ok hBuild
  apply density_of_integral_pos
  · exact Binary.zero_lt_iff.mpr
      ⟨Binary.isNaN_of_isFinite hFinite, integral_pos hWord hBuild hNonzero⟩
  · rw [hKept, List.getElem?_toArray, hWeight]

/-- Half of the least positive number, the bound for a quotient that vanishes, is exceeded by both
quotients if the exact one is above three times that. -/
theorem quotients_of_ratio (hNonzero : d.isUniform = false) {k : Nat} {w : Single}
    (hWeight : weights[k]? = some w) (hRatio : 3 / 2 ^ 150 <
      w.value / d.integral.value / (Binary.ofNat .single weights.length).value) :
    1 / 2 ^ 150 < w.value / d.integral.value ∧
      1 / 2 ^ 150 < (w / d.integral).value / (Binary.ofNat .single weights.length).value := by
  obtain ⟨_, hWeights, _, _, hFinite, _⟩ := build_eq_ok hBuild
  obtain ⟨_, hOne⟩ := count_range hWord hBuild
  obtain ⟨hw, hwLow⟩ := w.isWeight_iff.mp (hWeights w (List.mem_of_getElem? hWeight))
  have hPos := integral_pos hWord hBuild hNonzero
  have hQuotient := Binary.div_rounds w d.integral hw hFinite hPos.ne'
  have hNonneg : 0 ≤ w.value / d.integral.value :=
    div_nonneg (Binary.value_nonneg_of_le hwLow) hPos.le
  have hFirst : 1 / 2 ^ 150 < w.value / d.integral.value := by
    have hSelf := div_le_self hNonneg hOne
    linarith
  obtain ⟨hDensity, _⟩ := density_range hWord hBuild (density_of_weight hWord hBuild hNonzero hWeight)
  have hLoss := hQuotient.le_three_mul hDensity.1 hNonneg le_rfl
    ((Single.pos_iff hQuotient hNonneg).mpr hFirst)
  refine ⟨hFirst, ?_⟩
  rw [lt_div_iff₀ (by linarith)] at hRatio ⊢
  linarith

end

/-- **The density of a sample.**  Outside the uniform case a variate of the half-open unit interval
selects a bin of positive weight.  Its density is the weight over the integral, and its probability is
the density over the number of bins; each vanishes exactly if its quotient is at most `2 ^ (-150)`.
Both are positive if the variate is at least `2 ^ (-120)`, or if no weight exceeds the selected one more
than `2 ^ 80` times. -/
theorem sampled_positive (weights : List Single) (d : StepDensity) (hWord : weights.length < 2 ^ 64)
    (hBuild : build weights = .ok d) (hNonzero : d.isUniform = false) (u : Single)
    (hLow : Binary.zero ≤ u) (hHigh : u < Binary.one) :
    ∃ draw s w, d.sample u = .ok draw ∧ d.select u = .ok s ∧ s.bin = draw.bin ∧
      weights[draw.bin]? = some w ∧ Binary.zero < w ∧ draw.density = w / d.integral ∧
      s.probability = draw.density / Binary.ofNat .single weights.length ∧
      (Binary.zero < draw.density ↔ 1 / 2 ^ 150 < w.value / d.integral.value) ∧
      (Binary.zero < s.probability ↔
        1 / 2 ^ 150 < draw.density.value / (Binary.ofNat .single weights.length).value) ∧
      (1 / 2 ^ 120 ≤ u.value ∨ (∀ v ∈ weights, v.value ≤ 2 ^ 80 * w.value) →
        Binary.zero < draw.density ∧ Binary.zero < s.probability) := by
  obtain ⟨_, hWeights, _, _, hFinite, _⟩ := build_eq_ok hBuild
  obtain ⟨hCount, hOne⟩ := Binary.count_isFinite (F := .single) weights.length
    (length_pos_of_build hBuild) hWord
  have hPos := integral_pos hWord hBuild hNonzero
  rcases sample_cases hWord hBuild u with
    ⟨hNaN, _, _⟩ | ⟨_, k, _, x, p, hBin, hBound, _, hDensity, hSample, _⟩
  · rw [hLow.2.1] at hNaN
    cases hNaN
  · obtain ⟨w, hWeight, hwPos⟩ := weight_pos_of_bin hWord hBuild hNonzero hLow hHigh hBin
    obtain rfl : p = w / d.integral :=
      Except.ok.inj (hDensity.symm.trans (density_of_weight hWord hBuild hNonzero hWeight))
    obtain ⟨⟨hpFinite, hpLow⟩, _⟩ := density_range hWord hBuild hDensity
    have hw := (w.isWeight_iff.mp (hWeights w (List.mem_of_getElem? hWeight))).1
    have hwValue := (Binary.zero_lt_iff.mp hwPos).2
    have hDensityIff := Single.zero_lt_iff_of_rounds
      (Binary.div_rounds w d.integral hw hFinite hPos.ne') (div_nonneg hwValue.le hPos.le)
    have hProbabilityIff := Single.zero_lt_iff_of_rounds
      (Binary.div_rounds _ _ hpFinite hCount (by linarith))
      (div_nonneg (Binary.value_nonneg_of_le hpLow) (by linarith))
    refine ⟨⟨x, _, k⟩, ⟨k, _⟩, w, hSample,
      select_of_bin hBin (probability_of_density hBuild hBound hDensity), rfl, hWeight, hwPos, rfl,
      rfl, hDensityIff, hProbabilityIff, ?_⟩
    intro hLarge
    rw [hDensityIff, hProbabilityIff]
    apply quotients_of_ratio hWord hBuild hNonzero hWeight
    rcases hLarge with hVariate | hSpan
    · have hReached := variate_le_ratio hWord hBuild hNonzero hLow hHigh hBin hWeight
      linarith
    · have hRatio := inv_le_ratio hWord hBuild hNonzero hwValue hSpan
      linarith

/-- Two tiny weights before a large one: the greatest variate below one is sampled with a positive
density. -/
theorem sampled_positive_below_one :
    ∃ d draw s, build [.ofBits .single 0x30, .ofBits .single 3, .ofNat .single 96] = .ok d ∧
      d.isUniform = false ∧ d.sample Single.belowOne = .ok draw ∧
      d.select Single.belowOne = .ok s ∧ Binary.zero < draw.density ∧ Binary.zero < s.probability := by
  obtain ⟨draw, s, _, hSample, hSelect, _, _, _, _, _, _, _, hPositive⟩ :=
    sampled_positive [.ofBits .single 0x30, .ofBits .single 3, .ofNat .single 96] _ (by decide) rfl
      (by decide +kernel) Single.belowOne (by decide +kernel) (by decide +kernel)
  obtain ⟨hDensity, hProbability⟩ := hPositive (Or.inl (by rw [Single.value_belowOne]; norm_num))
  exact ⟨_, draw, s, rfl, by decide +kernel, hSample, hSelect, hDensity, hProbability⟩

/-- The same weights at zero: the second bin is selected although the first weight is greater, and both
its density and its probability vanish. -/
theorem sampled_positive_lost :
    ∃ d, build [.ofBits .single 0x30, .ofBits .single 3, .ofNat .single 96] = .ok d ∧
      d.isUniform = false ∧
      d.sample .zero = .ok ⟨.ofBits .single 0x3eaaaaab, .zero, 1⟩ ∧ d.select .zero = .ok ⟨1, .zero⟩ ∧
      ¬Binary.zero < (Binary.zero : Single) := by
  refine ⟨_, rfl, ?_⟩
  decide +kernel

end StepSampling.StepDensity
