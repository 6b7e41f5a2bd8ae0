import StepSampling.Proofs.Binary.Scaling
import StepSampling.Proofs.Density.Probability
import StepSampling.Proofs.Density.Underflow

/-!
# Probabilities above one

The probability of a bin is its weight over the integral, over the number of bins.  The integral is at
least the rounded share of the weight, so no probability should exceed one; but the share may have been
rounded down, and then the first quotient comes out above the number of bins.  The second quotient is
above one exactly in that case, because the quotient of different numbers never rounds to one.

For an integral that is not subnormal the excess is one spacing at most, and there is none if the number
of bins is a power of two or if the bin does not carry nearly all of the mass.  Down to the least
positive numbers, where a share may lose a third, the probability stays below three halves.
-/

namespace StepSampling

/-! ## Numbers -/

namespace Format

variable (F : Format)

/-- Twice the value of a code is the value of a code. -/
theorem exists_code_two_mul (c : Nat) : ∃ d, F.codeValue d = 2 * F.codeValue c := by
  rcases Nat.lt_or_ge c F.hidden with hSubnormal | hNormal
  · refine ⟨2 * c, ?_⟩
    rw [codeValue, codeValue, F.unitsOf_of_le _ (by omega), F.unitsOf_of_le _ (by omega)]
    push_cast
    ring
  · exact ⟨c + F.hidden, F.codeValue_add_hidden hNormal⟩

theorem exists_code_pow_mul (n c : Nat) : ∃ d, F.codeValue d = 2 ^ n * F.codeValue c := by
  induction n with
  | zero => exact ⟨c, by rw [pow_zero, one_mul]⟩
  | succ n ih =>
      obtain ⟨d, hd⟩ := ih
      obtain ⟨e, he⟩ := F.exists_code_two_mul d
      exact ⟨e, by rw [he, hd, pow_succ', mul_assoc]⟩

end Format

namespace Binary

variable {F : Format} {x y : Binary F}

/-- A rounded quotient exceeds one exactly if the dividend exceeds the divisor. -/
theorem div_le_one_iff (hx : zero ≤ x) (hxFinite : x.isFinite = true) (hy : y.isFinite = true)
    (hPos : 0 < y.value) : x / y ≤ one ↔ x ≤ y := by
  have hQuotient := div_rounds x y hxFinite hy hPos.ne'
  have hyNumber := isNaN_of_isFinite hy
  constructor
  · intro hLe
    refine le_iff_value.mpr ⟨hx.2.1, hyNumber, ?_⟩
    by_contra hAbove
    rw [not_le] at hAbove
    -- the quotient lies above one, so it would be rounded to one
    have hReached : (one : Binary F).value ≤ (x / y).value := by
      apply hQuotient.le_value rfl
      rw [value_one, one_le_div hPos]
      exact hAbove.le
    have hSame : x / y = one := eq_of_value hQuotient.1 rfl
      (negative_div x y (negative_of_pos (hPos.trans hAbove)) (negative_of_pos hPos))
      (le_antisymm (value_le_of_le hLe) hReached)
    exact hAbove.ne' ((div_eq_one_iff hx hxFinite hy hPos).mp hSame)
  · intro hLe
    refine le_iff_value.mpr ⟨hQuotient.1, rfl, hQuotient.value_le rfl ?_⟩
    rw [value_one, div_le_one hPos]
    exact value_le_of_le hLe

/-- A power of two times a number is exact unless it overflows. -/
theorem Rounds.value_eq_pow_mul {n : Nat} (hx : x.Rounds (2 ^ n * y.value))
    (hFinite : x.isFinite = true) (hNonneg : 0 ≤ y.value) : x.value = 2 ^ n * y.value := by
  obtain ⟨c, _, hValue⟩ := exists_code hNonneg
  obtain ⟨d, hScaled⟩ := F.exists_code_pow_mul n c
  rw [hx.value_eq_codeValue hFinite (by positivity), hValue, ← hScaled, F.nearestCode_codeValue]

/-- A number over a power of two is exact unless it is subnormal. -/
theorem Rounds.value_eq_div_pow {n : Nat} (hx : x.Rounds (y.value / 2 ^ n))
    (hFinite : x.isFinite = true) (hNormal : F.leastNormal ≤ y.value / 2 ^ n) :
    x.value = y.value / 2 ^ n := by
  have hQuotient : 0 ≤ y.value / 2 ^ n := F.leastNormal_pos.le.trans hNormal
  have hNonneg : 0 ≤ y.value := by
    rwa [le_div_iff₀ (by positivity), zero_mul] at hQuotient
  have hSelf : y.value / 2 ^ n ≤ y.value := div_le_self hNonneg (one_le_pow₀ one_le_two)
  have hPower : y.value / 2 ^ n = 2 ^ (-(n : ℤ)) * y.value := by
    rw [zpow_neg, zpow_natCast, div_eq_inv_mul]
  obtain ⟨c, _, hValue⟩ := exists_code hNonneg
  rw [hx.value_eq_codeValue hFinite hQuotient]
  rw [hPower] at hNormal ⊢
  rw [F.codeValue_nearestCode_zpow_mul _ (hNormal.trans (hPower.symm.le.trans hSelf)) hNormal, hValue,
    F.nearestCode_codeValue]

end Binary

namespace Single

variable {x : Single}

/-- The number above one that is not subnormal, in terms of the relative precision. -/
theorem up_range (hFinite : x.isFinite = true) (hNormal : 1 / 2 ^ 126 ≤ x.value) :
    (1 + 1 / 2 ^ 24) * x.value ≤ x.up.value ∧ x.up.value ≤ (1 + 1 / 2 ^ 23) * x.value := by
  have hNonneg : 0 ≤ x.value := le_trans (by positivity) hNormal
  obtain ⟨hNumber, hTop⟩ := (Binary.isFinite_iff x).mp hFinite
  obtain ⟨c, hKey, hValue⟩ := Binary.exists_code hNonneg
  have hUp : x.up.value = x.value + 2 ^ Format.single.shiftOf c / Format.single.unity := by
    rw [Binary.value_up_of_key hNumber hKey (by omega), Format.codeValue_succ, hValue]
  have hStep : x.value < x.up.value := by
    rw [hUp]
    exact lt_add_of_pos_right _ (div_pos (by positivity) Format.single.unity_cast_pos)
  have hGap := value_le_sub hNonneg hStep
  have hSpacing := Format.single.spacing_le c
  rw [← hValue, leastNormal_eq, max_eq_left hNormal,
    show (Format.single.hidden : ℚ) = 2 ^ 23 by norm_num [Format.hidden]] at hSpacing
  constructor <;> linarith

/-- A positive number is the least one or at least twice as large. -/
theorem unit_or_two_le (hPos : 0 < x.value) : x.value = 1 / 2 ^ 149 ∨ 1 / 2 ^ 148 ≤ x.value := by
  have hUnity : (Format.single.unity : ℚ) = 2 ^ 149 := Format.unity_cast .single
  obtain ⟨m, hm⟩ := x.exists_units
  rw [hUnity] at hm
  rw [hm, div_pos_iff_of_pos_right (by positivity)] at hPos
  have hUnits : 0 < m := by exact_mod_cast hPos
  rw [hm]
  rcases (Int.add_one_le_of_lt hUnits).eq_or_lt with rfl | hMore
  · left
    norm_num
  · right
    have hTwo : (2 : ℚ) ≤ m := by exact_mod_cast hMore
    rw [le_div_iff₀ (by positivity)]
    linarith

/-- Powers of two up to the words are numbers. -/
theorem value_ofNat_two_pow {k : Nat} (hWord : k < 64) :
    (Binary.ofNat .single (2 ^ k) : Single).value = 2 ^ k := by
  obtain ⟨y, hy, hValue⟩ := Binary.exists_value_eq .single 1 (149 + k) (by decide)
    (by simp only [Format.scale]; omega)
  have hExact : y.value = 2 ^ k := by
    rw [hValue, Format.unity_cast, Format.scale, pow_add, Nat.cast_one, one_mul,
      mul_div_cancel_left₀ _ (by positivity)]
  have hRounds := Binary.ofNat_rounds (F := .single) (2 ^ k)
  rw [Nat.cast_pow, Nat.cast_ofNat, ← hExact] at hRounds
  rw [← hExact]
  exact hRounds.value_eq (Binary.isNaN_of_isFinite hy)

theorem value_up_one : (Binary.one : Single).up.value = 1 + 1 / 2 ^ 23 := by
  have hKey : (Binary.one : Single).up.key =
      ((126 * Format.single.hidden + (2 ^ 23 + 1) : Nat) : Int) := by decide
  rw [Binary.value_of_shifted hKey (by decide) (by decide)]
  norm_num [Format.unity_eq, Format.scale]

end Single

namespace StepDensity

/-! ## The ratio of a weight to the integral -/

section

variable {weights : List Single} {d : StepDensity} (hWord : weights.length < 2 ^ 64)
  (hBuild : build weights = .ok d) {w : Single} (hMem : w ∈ weights)

include hWord hBuild hMem

/-- The exact share of a weight exceeds the integral by no more than its rounding has lost. -/
theorem exact_share_le :
    w.value / (Binary.ofNat .single weights.length).value ≤
      d.integral.value + 1 / 2 ^ 24 * max d.integral.value (1 / 2 ^ 126) := by
  obtain ⟨_, hWeights, _, _, _, _⟩ := build_eq_ok hBuild
  obtain ⟨hCount, hOne⟩ := count_range hWord hBuild
  obtain ⟨hNonneg, hShare⟩ := share_rounds hCount hOne (hWeights w hMem)
  have hLe := share_le_integral hWord hBuild hMem
  have hLoss := (abs_le.mp (hShare.error_le_value (share_nonneg hCount hOne (hWeights w hMem)).2
    hNonneg)).1
  rw [Single.leastNormal_eq] at hLoss
  have hHalf : (2 * Format.single.hidden : ℚ) = 2 ^ 24 := by norm_num [Format.hidden]
  rw [hHalf] at hLoss
  have hMax := max_le_max_right (1 / 2 ^ 126) hLe
  linarith

/-- The density of a weight over a positive integral. -/
theorem quotient_isDensity (hPos : 0 < d.integral.value) : (w / d.integral).IsDensity := by
  obtain ⟨_, _, hKept, _, hFinite, _⟩ := build_eq_ok hBuild
  obtain ⟨i, hWeight⟩ := List.mem_iff_getElem?.mp hMem
  exact (density_range hWord hBuild (density_of_integral_pos
    (Binary.zero_lt_iff.mpr ⟨Binary.isNaN_of_isFinite hFinite, hPos⟩)
    (by rw [hKept, List.getElem?_toArray, hWeight]))).1

/-- Over an integral that is not subnormal, a weight exceeds the number of bins by half a spacing. -/
theorem ratio_le_of_normal (hNormal : 1 / 2 ^ 126 ≤ d.integral.value) :
    w.value / d.integral.value ≤
      (1 + 1 / 2 ^ 24) * (Binary.ofNat .single weights.length).value := by
  have hPos : 0 < d.integral.value := lt_of_lt_of_le (by positivity) hNormal
  obtain ⟨_, hOne⟩ := count_range hWord hBuild
  have hShare := exact_share_le hWord hBuild hMem
  rw [max_eq_left hNormal, div_le_iff₀ (by linarith)] at hShare
  rw [div_le_iff₀ hPos]
  linarith

/-- Over any positive integral, a weight exceeds the number of bins by half of it at most, also when
the quotient is rounded. -/
theorem quotient_le (hPos : 0 < d.integral.value) :
    (w / d.integral).value ≤ 3 / 2 * (Binary.ofNat .single weights.length).value := by
  obtain ⟨_, hWeights, _, _, hFinite, _⟩ := build_eq_ok hBuild
  obtain ⟨_, hOne⟩ := count_range hWord hBuild
  have hWeight := hWeights w hMem
  have hNonneg := Binary.value_nonneg_of_le (w.isWeight_iff.mp hWeight).2
  have hQuotient := Binary.div_rounds w _ (w.isWeight_iff.mp hWeight).1 hFinite hPos.ne'
  have hQuotientFinite := (quotient_isDensity hWord hBuild hMem hPos).1
  have hShare := exact_share_le hWord hBuild hMem
  rw [div_le_iff₀ (by linarith)] at hShare
  generalize (Binary.ofNat .single weights.length).value = n at hOne hShare ⊢
  rcases Single.unit_or_two_le hPos with hUnit | hTwo
  · -- dividing by the least positive number is exact
    have hExact : w.value / d.integral.value = 2 ^ 149 * w.value := by
      rw [hUnit]
      ring
    rw [hExact] at hQuotient
    rw [hQuotient.value_eq_pow_mul hQuotientFinite hNonneg]
    rw [hUnit] at hShare
    norm_num at hShare ⊢
    linarith
  · -- otherwise the share has lost a quarter at most, and rounding the quotient adds little
    have hBound : w.value / d.integral.value ≤ 21 / 16 * n := by
      have hMax : max d.integral.value (1 / 2 ^ 126) ≤ d.integral.value + 1 / 2 ^ 126 :=
        max_le_add_of_nonneg hPos.le (by positivity)
      have hLoss : d.integral.value + 1 / 2 ^ 24 * max d.integral.value (1 / 2 ^ 126) ≤
          21 / 16 * d.integral.value := by linarith
      rw [div_le_iff₀ hPos]
      calc w.value ≤ (d.integral.value + 1 / 2 ^ 24 * max d.integral.value (1 / 2 ^ 126)) * n := hShare
        _ ≤ 21 / 16 * d.integral.value * n := mul_le_mul_of_nonneg_right hLoss (by linarith)
        _ = 21 / 16 * n * d.integral.value := by ring
    have hError := (abs_le.mp (Single.error_le_of_le hQuotient hQuotientFinite
      (div_nonneg hNonneg hPos.le) hBound (by linarith))).2
    linarith

end

/-! ## The probability -/

section

variable {weights : List Single} {d : StepDensity} (hWord : weights.length < 2 ^ 64)
  (hBuild : build weights = .ok d)

include hWord hBuild

/-- The probability of a bin exceeds one exactly if its density exceeds the number of bins. -/
theorem probability_eq_ok {i : Nat} (hBin : i < d.count) :
    ∃ q p, d.density i = .ok q ∧ d.probability i = .ok p ∧ p.IsDensity ∧
      p.Rounds (q.value / (Binary.ofNat .single weights.length).value) ∧
      (p ≤ Binary.one ↔ q ≤ Binary.ofNat .single weights.length) := by
  obtain ⟨hCount, hOne⟩ := count_range hWord hBuild
  obtain ⟨q, hDensity⟩ := density_eq_ok hBin
  obtain ⟨hq, _⟩ := density_range hWord hBuild hDensity
  obtain ⟨p, hProbability, hp⟩ := probability_of_lt hWord hBuild hBin
  obtain rfl := Except.ok.inj ((probability_of_density hBuild hBin hDensity).symm.trans hProbability)
  exact ⟨q, _, hDensity, hProbability, hp, Binary.div_rounds q _ hq.1 hCount (by linarith),
    Binary.div_le_one_iff hq.2 hq.1 hCount (by linarith)⟩

/-- The density of a bin is one without an integral, and the weight over the integral otherwise. -/
theorem density_cases {i : Nat} {w q : Single} (hWeight : weights[i]? = some w)
    (hDensity : d.density i = .ok q) :
    (d.isUniform = true ∧ q = Binary.one) ∨ (0 < d.integral.value ∧ q = w / d.integral) := by
  cases hUniform : d.isUniform with
  | true =>
      exact .inl ⟨rfl, Except.ok.inj (hDensity.symm.trans (density_of_isUniform hUniform i))⟩
  | false =>
      exact .inr ⟨integral_pos hWord hBuild hUniform,
        Except.ok.inj (hDensity.symm.trans (density_of_weight hWord hBuild hUniform hWeight))⟩

/-- A density exceeds the number of bins by half of it at most. -/
theorem density_le {i : Nat} {w q : Single} (hWeight : weights[i]? = some w)
    (hDensity : d.density i = .ok q) :
    q.value ≤ 3 / 2 * (Binary.ofNat .single weights.length).value := by
  rcases density_cases hWord hBuild hWeight hDensity with ⟨_, rfl⟩ | ⟨hPos, rfl⟩
  · obtain ⟨_, hOne⟩ := count_range hWord hBuild
    rw [Binary.value_one]
    linarith
  · exact quotient_le hWord hBuild (List.mem_of_getElem? hWeight) hPos

/-- A probability is at most three halves. -/
theorem probability_le_three_halves {i : Nat} {w q p : Single} (hWeight : weights[i]? = some w)
    (hDensity : d.density i = .ok q)
    (hp : p.Rounds (q.value / (Binary.ofNat .single weights.length).value)) : p.value ≤ 3 / 2 := by
  obtain ⟨_, hOne⟩ := count_range hWord hBuild
  obtain ⟨y, hy, hValue⟩ := Binary.exists_value_eq .single 3 148 (by decide) (by decide)
  have hThreeHalves : y.value = 3 / 2 := by
    rw [hValue, Format.unity_cast]
    norm_num [Format.scale]
  rw [← hThreeHalves]
  apply hp.value_le (Binary.isNaN_of_isFinite hy)
  rw [hThreeHalves, div_le_iff₀ (by linarith)]
  exact density_le hWord hBuild hWeight hDensity

/-- A density does not exceed the number of bins if the weight does not exceed that many integrals. -/
theorem density_le_count {i : Nat} {w q : Single} (hWeight : weights[i]? = some w)
    (hDensity : d.density i = .ok q)
    (hLe : w.value ≤ d.integral.value * (Binary.ofNat .single weights.length).value) :
    q ≤ Binary.ofNat .single weights.length := by
  obtain ⟨_, hWeights, _, _, hFinite, _⟩ := build_eq_ok hBuild
  rcases density_cases hWord hBuild hWeight hDensity with ⟨_, rfl⟩ | ⟨hPos, rfl⟩
  · rw [Binary.le_iff_value, Binary.value_one]
    exact ⟨rfl, rfl, (count_range hWord hBuild).2⟩
  · have hw := (w.isWeight_iff.mp (hWeights w (List.mem_of_getElem? hWeight))).1
    have hQuotient := Binary.div_rounds w _ hw hFinite hPos.ne'
    refine Binary.le_iff_value.mpr ⟨hQuotient.1, rfl, hQuotient.value_le rfl ?_⟩
    rwa [div_le_iff₀ hPos, mul_comm]

/-- Over an integral that is not subnormal, a density exceeds the number of bins by one spacing at
most. -/
theorem density_le_up {i : Nat} {w q : Single} (hWeight : weights[i]? = some w)
    (hDensity : d.density i = .ok q) (hNormal : 1 / 2 ^ 126 ≤ d.integral.value) :
    q.value ≤ (1 + 1 / 2 ^ 23) * (Binary.ofNat .single weights.length).value := by
  obtain ⟨_, hWeights, _, _, hFinite, _⟩ := build_eq_ok hBuild
  obtain ⟨hCount, hOne⟩ := count_range hWord hBuild
  rcases density_cases hWord hBuild hWeight hDensity with ⟨_, rfl⟩ | ⟨hPos, rfl⟩
  · rw [Binary.value_one]
    linarith
  · have hMem := List.mem_of_getElem? hWeight
    have hw := (w.isWeight_iff.mp (hWeights w hMem)).1
    obtain ⟨hFrom, hTo⟩ := Single.up_range hCount (le_trans (by norm_num) hOne)
    -- the exact ratio does not pass the number above the number of bins, so its rounding does not
    refine le_trans ?_ hTo
    apply (Binary.div_rounds w _ hw hFinite hPos.ne').value_le (Binary.isNaN_up _)
    exact (ratio_le_of_normal hWord hBuild hMem hNormal).trans hFrom

/-- If the number of bins is a power of two, no weight exceeds that many integrals that are not
subnormal: only a share below them is rounded. -/
theorem weight_le_of_pow {k : Nat} (hPower : weights.length = 2 ^ k)
    (hNormal : 1 / 2 ^ 126 ≤ d.integral.value) {w : Single} (hMem : w ∈ weights) :
    w.value ≤ d.integral.value * (Binary.ofNat .single weights.length).value := by
  obtain ⟨_, hWeights, _, _, _, _⟩ := build_eq_ok hBuild
  obtain ⟨hCount, hOne⟩ := count_range hWord hBuild
  obtain ⟨_, hShare⟩ := share_rounds hCount hOne (hWeights w hMem)
  have hLe := share_le_integral hWord hBuild hMem
  have hExponent : k < 64 := by
    rw [hPower] at hWord
    exact (Nat.pow_lt_pow_iff_right (by decide)).mp hWord
  have hExact := Single.value_ofNat_two_pow hExponent
  rw [← hPower] at hExact
  rw [← div_le_iff₀ (by linarith)]
  rcases le_or_gt (1 / 2 ^ 126) (w.value / (Binary.ofNat .single weights.length).value) with
    hLarge | hSmall
  · refine le_trans (le_of_eq ?_) hLe
    rw [hExact] at hShare hLarge ⊢
    exact (hShare.value_eq_div_pow (share_nonneg hCount hOne (hWeights w hMem)).2
      (by rwa [Single.leastNormal_eq])).symm
  · exact hSmall.le.trans hNormal

end

/-- A weight that leaves the others enough of the mass has no probability above one. -/
theorem probability_le_one_of_mass {weights : List Single} {d : StepDensity}
    (hSmall : weights.length ≤ 2 ^ 20) (hBuild : build weights = .ok d)
    (hLarge : 1 / 2 ^ 100 ≤ d.integral.value) {i : Nat} {w p : Single} (hWeight : weights[i]? = some w)
    (hMass : (1 + (weights.length + 2) / 2 ^ 22) * w.value ≤ exactSum weights weights.length)
    (hProbability : d.probability i = .ok p) : p ≤ Binary.one := by
  obtain ⟨_, hWeights, _, _, _, _⟩ := build_eq_ok hBuild
  obtain ⟨r, hFound, hr, hError⟩ := probability_error hSmall hBuild hLarge hWeight
  obtain rfl := Except.ok.inj (hFound.symm.trans hProbability)
  have hTotal := exactSum_pos hSmall hBuild hLarge
  have hNonneg := Binary.value_nonneg_of_le
    (w.isWeight_iff.mp (hWeights w (List.mem_of_getElem? hWeight))).2
  have hCount : (weights.length : ℚ) ≤ 2 ^ 20 := by exact_mod_cast hSmall
  have hLength : (0 : ℚ) ≤ weights.length := Nat.cast_nonneg _
  refine Binary.le_iff_value.mpr ⟨Binary.isNaN_of_isFinite hr, rfl, ?_⟩
  rw [Binary.value_one]
  have hUpper := (abs_le.mp hError).2
  have hRatio : (1 + (weights.length + 2) / 2 ^ 22) *
      (w.value / exactSum weights weights.length) ≤ 1 := by
    rw [← mul_div_assoc, div_le_one hTotal]
    exact hMass
  have hRatioNonneg := div_nonneg hNonneg hTotal.le
  generalize w.value / exactSum weights weights.length = t at hUpper hRatio hRatioNonneg
  rcases le_total t (1 / 2) with hHalf | hMost
  · have hPart : (weights.length + 2) / 2 ^ 23 * t ≤ 1 / 4 * t :=
      mul_le_mul_of_nonneg_right (by linarith) hRatioNonneg
    linarith
  · -- the error is half of what the other weights leave, and that is much more than a unit
    have hPart : 1 / 2 ^ 24 ≤ (weights.length + 2) / 2 ^ 23 * t := by
      calc (1 : ℚ) / 2 ^ 24 ≤ 2 / 2 ^ 23 * (1 / 2) := by norm_num
        _ ≤ (weights.length + 2) / 2 ^ 23 * t :=
            mul_le_mul (by linarith) hMost (by norm_num) (by positivity)
    have hTwice : (1 + (weights.length + 2) / 2 ^ 22) * t =
        t + (weights.length + 2) / 2 ^ 23 * t + (weights.length + 2) / 2 ^ 23 * t := by ring
    rw [hTwice] at hRatio
    linarith

/-- **When a probability exceeds one.**  The probability of a bin is never negative and at most three
halves.  It exceeds one if and only if the density exceeds the number of bins, so it does not for equally
likely bins, for a single bin, and wherever the weight does not exceed the integral times the number of
bins.  Over an integral that is not subnormal it exceeds one by a spacing at most, and not at all if the
number of bins is a power of two; for up to `2 ^ 20` weights with an integral of at least `2 ^ (-100)` it
exceeds one only for a weight that leaves less than `(n + 2) * 2 ^ (-22)` of itself to the others. -/
theorem probability_le_one_iff (weights : List Single) (d : StepDensity)
    (hWord : weights.length < 2 ^ 64) (hBuild : build weights = .ok d) (i : Nat) (hBin : i < d.count) :
    ∃ w q p, weights[i]? = some w ∧ d.density i = .ok q ∧ d.probability i = .ok p ∧
      p.isFinite = true ∧ Binary.zero ≤ p ∧ p.value ≤ 3 / 2 ∧
      (p ≤ Binary.one ↔ q ≤ Binary.ofNat .single weights.length) ∧
      (d.isUniform = true ∨ weights.length = 1 ∨
        w.value ≤ d.integral.value * (Binary.ofNat .single weights.length).value →
          p ≤ Binary.one) ∧
      (1 / 2 ^ 126 ≤ d.integral.value →
        p ≤ Binary.one.up ∧ ((∃ k, weights.length = 2 ^ k) → p ≤ Binary.one)) ∧
      (weights.length ≤ 2 ^ 20 → 1 / 2 ^ 100 ≤ d.integral.value →
        (1 + (weights.length + 2) / 2 ^ 22) * w.value ≤ exactSum weights weights.length →
          p ≤ Binary.one) := by
  obtain ⟨_, hOne⟩ := count_range hWord hBuild
  obtain ⟨q, p, hDensity, hProbability, hp, hRounds, hIff⟩ := probability_eq_ok hWord hBuild hBin
  rw [count_eq hBuild] at hBin
  have hWeight : weights[i]? = some weights[i] := List.getElem?_eq_getElem hBin
  have hMem := List.mem_of_getElem? hWeight
  generalize weights[i] = w at hWeight hMem
  have hBelow : w.value ≤ d.integral.value * (Binary.ofNat .single weights.length).value →
      p ≤ Binary.one := fun hLe => hIff.mpr (density_le_count hWord hBuild hWeight hDensity hLe)
  refine ⟨w, q, p, hWeight, hDensity, hProbability, hp.1, hp.2,
    probability_le_three_halves hWord hBuild hWeight hDensity hRounds, hIff, ?_, ?_, ?_⟩
  · rintro (hUniform | hSingle | hLe)
    · obtain rfl := Except.ok.inj (hDensity.symm.trans (density_of_isUniform hUniform i))
      rw [hIff, Binary.le_iff_value, Binary.value_one]
      exact ⟨rfl, rfl, hOne⟩
    · apply hBelow
      obtain ⟨v, rfl⟩ := List.length_eq_one_iff.mp hSingle
      obtain rfl := List.mem_singleton.mp hMem
      have hNonneg := Binary.value_nonneg_of_le (integral_nonneg hWord hBuild)
      rw [integral_of_single hBuild] at hNonneg ⊢
      exact le_mul_of_one_le_right hNonneg hOne
    · exact hBelow hLe
  · intro hNormal
    refine ⟨?_, ?_⟩
    · refine Binary.le_iff_value.mpr ⟨hp.2.2.1, rfl, ?_⟩
      apply hRounds.value_le rfl
      rw [Single.value_up_one, div_le_iff₀ (by linarith)]
      exact density_le_up hWord hBuild hWeight hDensity hNormal
    · rintro ⟨k, hPower⟩
      exact hBelow (weight_le_of_pow hWord hBuild hPower hNormal hMem)
  · intro hSmall hLarge hMass
    exact probability_le_one_of_mass hSmall hBuild hLarge hWeight hMass hProbability

/-- The weights three, one and two zeros: a quarter of the mass is not in the first bin, and its
probability does not exceed one. -/
theorem probability_le_one_iff_four :
    ∃ d p, build [.ofNat .single 3, .one, .zero, .zero] = .ok d ∧ d.probability 0 = .ok p ∧
      exactSum [.ofNat .single 3, .one, .zero, .zero] 4 = 4 ∧
      Binary.zero ≤ p ∧ p.value ≤ 3 / 2 ∧ p ≤ (Binary.one : Single).up ∧ p ≤ Binary.one := by
  obtain ⟨d, hBuild, hCount, hIntegral⟩ :
      ∃ d, build [.ofNat .single 3, .one, .zero, .zero] = .ok d ∧ d.count = 4 ∧
        d.integral = Binary.one := ⟨_, rfl, rfl, by decide +kernel⟩
  have hOne : d.integral.value = 1 := by rw [hIntegral, Binary.value_one]
  have hThree := Binary.value_ofNat_single (n := 3) (by decide)
  push_cast at hThree
  have hSum : exactSum [.ofNat .single 3, .one, .zero, .zero] 4 = 4 := by
    simp only [exactSum, List.take, List.map_cons, List.map_nil, List.sum_cons, List.sum_nil, hThree,
      Binary.value_one, Binary.value_zero]
    norm_num
  obtain ⟨w, _, p, hWeight, _, hProbability, _, hLow, hBound, _, _, hNormal, hMass⟩ :=
    probability_le_one_iff _ d (by decide) hBuild 0 (by omega)
  obtain rfl := Option.some.inj hWeight
  obtain ⟨hUp, _⟩ := hNormal (by rw [hOne]; norm_num)
  have hLe := hMass (by decide) (by rw [hOne]; norm_num) (by
    rw [hThree]
    refine le_trans ?_ hSum.ge
    norm_num)
  exact ⟨d, p, hBuild, hProbability, hSum, hLow, hBound, hUp, hLe⟩

/-- Nineteen before six zeros: the share of the first bin is rounded down, and its probability is the
number above one. -/
theorem probability_exceeds_one :
    ∃ d p, build (.ofNat .single 19 :: List.replicate 6 .zero) = .ok d ∧ d.isUniform = false ∧
      0 < d.count ∧ d.probability 0 = .ok p ∧ p = (Binary.one : Single).up ∧ ¬p ≤ Binary.one := by
  refine ⟨_, _, rfl, ?_, ?_, rfl, ?_⟩ <;> decide +kernel

end StepDensity

end StepSampling
