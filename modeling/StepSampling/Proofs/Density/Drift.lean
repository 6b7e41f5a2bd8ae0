import StepSampling.Proofs.Binary.Limits
import StepSampling.Proofs.Density.Cumulative

/-!
# How far the running sums drift

A running sum is made of shares, the weights over their number, and every share and every addition is
rounded.  Two bounds hold for every sum that is finite, however many weights there are before it:

* `sums_drift`: its distance from the exact sum of the shares is at most one rounding for each
  addition, because the sums never decrease and no addition rounds by more than its own result allows;
* `sums_le_twice`: it is at most twice the exact sum, because an addition goes no further beyond its
  exact result than the share it adds.

The shares themselves are off by a rounding, and by half a unit where they underflow.  Divided by the
integral, which has drifted like the other sums, this bounds the error of the cumulative
distribution.
-/

namespace StepSampling

/-- A ratio of a part to a whole, when both are off. -/
private theorem ratio_error {a A w W : ℚ} (hA : 0 ≤ A) (hLe : A ≤ W) (hw : 0 < w) (hW : 0 < W) :
    |a / w - A / W| ≤ (|a - A| + |w - W|) / w := by
  have hPart : A / W ≤ 1 := (div_le_one hW).mpr hLe
  have hSplit : a / w - A / W = ((a - A) - A / W * (w - W)) / w := by
    field_simp
    ring
  rw [hSplit, abs_div, abs_of_pos hw]
  gcongr
  calc |a - A - A / W * (w - W)| ≤ |a - A| + |A / W * (w - W)| := abs_sub _ _
    _ = |a - A| + A / W * |w - W| := by rw [abs_mul, abs_of_nonneg (div_nonneg hA hW.le)]
    _ ≤ |a - A| + 1 * |w - W| := by gcongr
    _ = |a - A| + |w - W| := by rw [one_mul]

/-- Two sequences stay as close as their steps allow. -/
theorem abs_sub_le_of_steps {f g e : Nat → ℚ} {n : Nat} (hStart : |f 0 - g 0| ≤ e 0)
    (hStep : ∀ k < n, |(f (k + 1) - f k) - (g (k + 1) - g k)| ≤ e (k + 1) - e k) :
    ∀ k ≤ n, |f k - g k| ≤ e k := by
  intro k hIndex
  induction k with
  | zero => exact hStart
  | succ k ih =>
      calc |f (k + 1) - g (k + 1)|
          = |(f k - g k) + ((f (k + 1) - f k) - (g (k + 1) - g k))| := by
            congr 1
            ring
        _ ≤ |f k - g k| + |(f (k + 1) - f k) - (g (k + 1) - g k)| := abs_add_le _ _
        _ ≤ e k + (e (k + 1) - e k) := add_le_add (ih (by omega)) (hStep k (by omega))
        _ = e (k + 1) := by ring

namespace StepDensity

/-! ## Exact sums -/

/-- The exact sum of the first `k` numbers. -/
def exactSum (xs : List Single) (k : Nat) : ℚ := ((xs.take k).map Binary.value).sum

@[simp] theorem exactSum_zero (xs : List Single) : exactSum xs 0 = 0 := rfl

theorem exactSum_succ {xs : List Single} {k : Nat} {x : Single} (hEntry : xs[k]? = some x) :
    exactSum xs (k + 1) = exactSum xs k + x.value := by
  simp [exactSum, List.take_add_one, hEntry]

/-- The exact sum of a stretch. -/
theorem exactSum_add (xs : List Single) (i j : Nat) :
    exactSum xs (i + j) = exactSum xs i + exactSum ((xs.drop i).take j) j := by
  simp [exactSum, List.take_add, List.take_take]

theorem exactSum_mono {xs : List Single} (hNonneg : ∀ x ∈ xs, 0 ≤ x.value) :
    Monotone (exactSum xs) := by
  apply monotone_nat_of_le_succ
  intro k
  cases hEntry : xs[k]? with
  | none =>
      have hLength := List.getElem?_eq_none_iff.mp hEntry
      rw [exactSum, exactSum, List.take_of_length_le hLength, List.take_of_length_le (by omega)]
  | some x =>
      rw [exactSum_succ hEntry]
      linarith [hNonneg x (List.mem_of_getElem? hEntry)]

theorem exactSum_le_mul {xs : List Single} {b : ℚ} (hb : 0 ≤ b) (hBound : ∀ x ∈ xs, x.value ≤ b)
    (k : Nat) : exactSum xs k ≤ k * b := by
  calc exactSum xs k ≤ ((xs.take k).map Binary.value).length • b := by
        apply List.sum_le_card_nsmul
        intro v hMem
        obtain ⟨x, hx, rfl⟩ := List.mem_map.mp hMem
        exact hBound x (List.mem_of_mem_take hx)
    _ ≤ k * b := by
        rw [nsmul_eq_mul, List.length_map]
        gcongr
        exact List.length_take_le k xs

/-- What the weights add to the running sums. -/
def shares (weights : List Single) : List Single :=
  weights.map (· / Binary.ofNat .single weights.length)

theorem getElem?_shares {weights : List Single} {k : Nat} {w : Single}
    (hWeight : weights[k]? = some w) :
    (shares weights)[k]? = some (w / Binary.ofNat .single weights.length) := by
  rw [shares, List.getElem?_map, hWeight, Option.map_some]

@[simp] theorem length_shares (weights : List Single) :
    (shares weights).length = weights.length := List.length_map _

/-! ## One step -/

section

variable {weights : List Single} (hNonempty : weights ≠ []) (hWord : weights.length < 2 ^ 64)
  (hWeights : ∀ w ∈ weights, w.isWeight = true)

include hNonempty hWord hWeights

theorem share_range {q : Single} (hMem : q ∈ shares weights) : 0 ≤ q.value ∧ q.isFinite = true := by
  obtain ⟨hCount, hOne⟩ :=
    Binary.count_isFinite (F := .single) weights.length (List.length_pos_iff.mpr hNonempty) hWord
  obtain ⟨w, hw, rfl⟩ := List.mem_map.mp hMem
  obtain ⟨hLow, hFinite⟩ := share_nonneg hCount hOne (hWeights w hw)
  exact ⟨Binary.value_nonneg_of_le hLow, hFinite⟩

theorem sum_nonneg {k : Nat} {s : Single} (hSum : (sums weights)[k]? = some s) : 0 ≤ s.value :=
  Binary.value_nonneg_of_le (sums_range hNonempty hWord hWeights (List.mem_of_getElem? hSum)).1

/-- The exact sums of the shares grow. -/
theorem exactSum_shares_mono : Monotone (exactSum (shares weights)) :=
  exactSum_mono fun _ hMem => (share_range hNonempty hWord hWeights hMem).1

omit hNonempty hWord hWeights in
/-- Every sum but the first is a sum before it plus a share. -/
theorem exists_of_sums_succ {k : Nat} {t : Single} (hNext : (sums weights)[k + 1]? = some t) :
    ∃ s q, (sums weights)[k]? = some s ∧ (shares weights)[k]? = some q ∧ t = s + q := by
  have hIndex : k < weights.length := index_le_of_sum hNext
  obtain ⟨s, hSum⟩ := exists_sum hIndex.le
  have hWeight : weights[k]? = some weights[k] := List.getElem?_eq_getElem hIndex
  exact ⟨s, _, hSum, getElem?_shares hWeight,
    Option.some.inj (hNext.symm.trans (sums_succ hSum hWeight))⟩

/-- A finite sum has been made from finite numbers, and is not below the sum before it. -/
theorem step_of_finite {k : Nat} {t : Single} (hNext : (sums weights)[k + 1]? = some t)
    (hFinite : t.isFinite = true) :
    ∃ s q, (sums weights)[k]? = some s ∧ (shares weights)[k]? = some q ∧ t = s + q ∧
      s.isFinite = true ∧ q.isFinite = true ∧ 0 ≤ s.value ∧ 0 ≤ q.value ∧ s.value ≤ t.value := by
  obtain ⟨s, q, hSum, hShare, rfl⟩ := exists_of_sums_succ hNext
  obtain ⟨hq, hqFinite⟩ := share_range hNonempty hWord hWeights (List.mem_of_getElem? hShare)
  obtain ⟨hLow, _, hSign⟩ := sums_range hNonempty hWord hWeights (List.mem_of_getElem? hSum)
  have hqLow := Binary.zero_le_iff.mpr ⟨Binary.isNaN_of_isFinite hqFinite, hq⟩
  have hLe := (Binary.le_add hLow hSign hqLow hqFinite).1
  exact ⟨s, q, hSum, hShare, rfl, Binary.isFinite_of_le hLow hLe hFinite, hqFinite,
    Binary.value_nonneg_of_le hLow, hq, Binary.value_le_of_le hLe⟩

/-! ## Two bounds for the sums -/

/-- A finite sum differs from the exact one by at most a rounding for each addition. -/
theorem sums_drift {k : Nat} {s : Single} (hSum : (sums weights)[k]? = some s)
    (hFinite : s.isFinite = true) :
    |s.value - exactSum (shares weights) k| ≤ k / 2 ^ 24 * s.value := by
  induction k generalizing s with
  | zero =>
      rw [sums_zero, Option.some.injEq] at hSum
      simp [← hSum]
  | succ k ih =>
      obtain ⟨a, q, hBefore, hShare, rfl, ha, hq, haLow, hqLow, hLe⟩ :=
        step_of_finite hNonempty hWord hWeights hSum hFinite
      have hAdded := Single.add_error ha hq (by linarith) hFinite
      have hEarlier : |a.value - exactSum (shares weights) k| ≤ k / 2 ^ 24 * (a + q).value :=
        (ih hBefore ha).trans (by gcongr)
      calc |(a + q).value - exactSum (shares weights) (k + 1)|
          = |((a + q).value - (a.value + q.value)) + (a.value - exactSum (shares weights) k)| := by
            rw [exactSum_succ hShare]
            congr 1
            ring
        _ ≤ |(a + q).value - (a.value + q.value)| + |a.value - exactSum (shares weights) k| :=
            abs_add_le _ _
        _ ≤ 1 / 2 ^ 24 * (a + q).value + k / 2 ^ 24 * (a + q).value := add_le_add hAdded hEarlier
        _ = (k + 1 : Nat) / 2 ^ 24 * (a + q).value := by
            push_cast
            ring

/-- A finite sum is at most twice the exact one, for any number of weights. -/
theorem sums_le_twice {k : Nat} {s : Single} (hSum : (sums weights)[k]? = some s)
    (hFinite : s.isFinite = true) : s.value ≤ 2 * exactSum (shares weights) k := by
  induction k generalizing s with
  | zero =>
      rw [sums_zero, Option.some.injEq] at hSum
      simp [← hSum]
  | succ k ih =>
      obtain ⟨a, q, hBefore, hShare, rfl, ha, hq, haLow, hqLow, _⟩ :=
        step_of_finite hNonempty hWord hWeights hSum hFinite
      have hAdded := (Binary.add_rounds a q ha hq).add_le_two_mul haLow (by linarith)
      rw [exactSum_succ hShare]
      linarith [ih hBefore ha]

/-! ## The shares -/

/-- A share against the exact quotient. -/
theorem share_error (hSmall : weights.length ≤ 2 ^ 24) {w : Single} (hMem : w ∈ weights) :
    |(w / Binary.ofNat .single weights.length).value - w.value / weights.length| ≤
      1 / 2 ^ 24 * (w.value / weights.length) + 1 / 2 ^ 150 := by
  obtain ⟨hCount, hOne⟩ :=
    Binary.count_isFinite (F := .single) weights.length (List.length_pos_iff.mpr hNonempty) hWord
  obtain ⟨hNonneg, hShare⟩ := share_rounds hCount hOne (hWeights w hMem)
  have hFinite := (share_range hNonempty hWord hWeights (List.mem_map_of_mem hMem)).2
  rw [Binary.value_ofNat_single hSmall] at hNonneg hShare
  exact Single.error_le_add hShare hFinite hNonneg

/-- The shares of weights up to a bound add up to little more than that bound, for any number of
weights. -/
theorem exactSum_shares_le {b : ℚ} (hBound : ∀ w ∈ weights, w.value ≤ b) {k : Nat}
    (hIndex : k ≤ weights.length) : exactSum (shares weights) k ≤ 6 * b := by
  have hLength : 1 ≤ weights.length := List.length_pos_iff.mpr hNonempty
  obtain ⟨hCount, hOne⟩ := Binary.count_isFinite (F := .single) weights.length hLength hWord
  have hTwice := Single.le_twice_count hLength hWord
  have hLong : (k : ℚ) ≤ weights.length := by exact_mod_cast hIndex
  generalize hn : Binary.ofNat .single weights.length = n at hCount hOne hTwice
  have hShares : ∀ q ∈ shares weights, q.value ≤ 3 * (b / n.value) := by
    intro q hMem
    obtain ⟨_, hqFinite⟩ := share_range hNonempty hWord hWeights hMem
    obtain ⟨w, hw, rfl⟩ := List.mem_map.mp hMem
    obtain ⟨hNonneg, hShare⟩ := share_rounds hCount hOne (hWeights w hw)
    rw [hn] at hqFinite ⊢
    exact (hShare.value_le_three_mul hqFinite hNonneg).trans (by gcongr; exact hBound w hw)
  have hb : 0 ≤ b := by
    obtain ⟨w, hw⟩ := List.exists_mem_of_ne_nil weights hNonempty
    exact (Binary.value_nonneg_of_le (w.isWeight_iff.mp (hWeights w hw)).2).trans (hBound w hw)
  calc exactSum (shares weights) k ≤ k * (3 * (b / n.value)) :=
        exactSum_le_mul (by positivity) hShares k
    _ ≤ 2 * n.value * (3 * (b / n.value)) := by
        gcongr
        linarith
    _ = 6 * b := by
        field_simp
        ring

/-- The exact sums of the shares against those of the weights. -/
theorem shares_error (hSmall : weights.length ≤ 2 ^ 24) {k : Nat} (hIndex : k ≤ weights.length) :
    |exactSum (shares weights) k - exactSum weights k / weights.length| ≤
      1 / 2 ^ 24 * (exactSum weights k / weights.length) + k / 2 ^ 150 := by
  refine abs_sub_le_of_steps (f := exactSum (shares weights))
    (g := fun i => exactSum weights i / weights.length)
    (e := fun i => 1 / 2 ^ 24 * (exactSum weights i / weights.length) + i / 2 ^ 150) (by simp) ?_
    k hIndex
  intro i hi
  have hWeight : weights[i]? = some weights[i] := List.getElem?_eq_getElem hi
  have hShare := share_error hNonempty hWord hWeights hSmall (List.mem_of_getElem? hWeight)
  rw [exactSum_succ (getElem?_shares hWeight), exactSum_succ hWeight, add_sub_cancel_left, add_div,
    add_sub_cancel_left]
  refine hShare.trans (le_of_eq ?_)
  push_cast
  ring

/-- A running sum against the exact sum of the weights, over their number. -/
theorem sum_error (hSmall : weights.length ≤ 2 ^ 24) {k : Nat} {s : Single}
    (hSum : (sums weights)[k]? = some s) (hFinite : s.isFinite = true)
    (hIndex : k ≤ weights.length) :
    |s.value - exactSum weights k / weights.length| ≤
      k / 2 ^ 24 * s.value + 1 / 2 ^ 24 * (exactSum weights k / weights.length) + k / 2 ^ 150 := by
  have hDrift := sums_drift hNonempty hWord hWeights hSum hFinite
  have hShares := shares_error hNonempty hWord hWeights hSmall hIndex
  linarith [abs_sub_le s.value (exactSum (shares weights) k) (exactSum weights k / weights.length)]

end

/-! ## The cumulative distribution -/

theorem exactSum_weights_mono {weights : List Single}
    (hWeights : ∀ w ∈ weights, w.isWeight = true) : Monotone (exactSum weights) :=
  exactSum_mono fun w hw => Binary.value_nonneg_of_le (w.isWeight_iff.mp (hWeights w hw)).2

/-- Underflow of the shares is nothing against an integral that is not tiny. -/
theorem underflow_le {y : ℚ} (hLarge : 1 / 2 ^ 100 ≤ y) {k : Nat} (hFew : k ≤ 2 ^ 20) :
    (k : ℚ) / 2 ^ 150 ≤ 1 / 2 / 2 ^ 24 * y := by
  have hCount : (k : ℚ) ≤ 2 ^ 20 := by exact_mod_cast hFew
  calc (k : ℚ) / 2 ^ 150 ≤ 2 ^ 20 / 2 ^ 150 := by gcongr
    _ ≤ 1 / 2 / 2 ^ 24 * (1 / 2 ^ 100) := by norm_num
    _ ≤ 1 / 2 / 2 ^ 24 * y := by gcongr

section

variable {weights : List Single} {d : StepDensity} (hSmall : weights.length ≤ 2 ^ 20)
  (hBuild : build weights = .ok d) (hLarge : 1 / 2 ^ 100 ≤ d.integral.value)

include hSmall hBuild hLarge

/-- The exact mean of the weights is at most twice the integral. -/
theorem mean_le_twice_integral :
    exactSum weights weights.length / weights.length ≤ 2 * d.integral.value := by
  obtain ⟨hNonempty, hWeights, _, _, hFinite, _⟩ := build_eq_ok hBuild
  have hError := (abs_le.mp (sum_error hNonempty (by omega) hWeights (by omega)
    (getElem?_sums_integral hBuild) hFinite le_rfl)).1
  have hUnderflow := underflow_le hLarge hSmall
  have hDrift : (weights.length : ℚ) / 2 ^ 24 * d.integral.value ≤
      2 ^ 20 / 2 ^ 24 * d.integral.value := by
    have hCount : (weights.length : ℚ) ≤ 2 ^ 20 := by exact_mod_cast hSmall
    have hPos : 0 ≤ d.integral.value := le_trans (by positivity) hLarge
    gcongr
  linarith

/-- A running sum against the exact sum, counted in roundings of the integral. -/
theorem sum_error_le {k : Nat} {s : Single} (hSum : (sums weights)[k]? = some s) :
    |s.value - exactSum weights k / weights.length| ≤
      (weights.length + 5 / 2) / 2 ^ 24 * d.integral.value := by
  obtain ⟨hNonempty, hWeights, _, _, _, _⟩ := build_eq_ok hBuild
  have hWord : weights.length < 2 ^ 64 := by omega
  have hIndex := index_le_of_sum hSum
  obtain ⟨hLow, hHigh, hFinite⟩ := sum_of_build hWord hBuild hSum
  have hError := sum_error hNonempty hWord hWeights (by omega) hSum hFinite hIndex
  have hMean : exactSum weights k / weights.length ≤ 2 * d.integral.value :=
    (div_le_div_of_nonneg_right (exactSum_weights_mono hWeights hIndex) (Nat.cast_nonneg _)).trans
      (mean_le_twice_integral hSmall hBuild hLarge)
  have hUnderflow := underflow_le hLarge (hIndex.trans hSmall)
  have hDrift : (k : ℚ) / 2 ^ 24 * s.value ≤ weights.length / 2 ^ 24 * d.integral.value := by
    have hValue := Binary.value_le_of_le hHigh
    have hNonneg := Binary.value_nonneg_of_le hLow
    gcongr
  linarith

/-- An integral that is not tiny comes from weights that do not all vanish. -/
theorem exactSum_pos : 0 < exactSum weights weights.length := by
  have hPos : 0 < d.integral.value := lt_of_lt_of_le (by positivity) hLarge
  have hError :=
    (abs_le.mp (sum_error_le hSmall hBuild hLarge (getElem?_sums_integral hBuild))).2
  have hFactor : (weights.length + 5 / 2) / 2 ^ 24 * d.integral.value < 1 * d.integral.value := by
    have hCount : (weights.length : ℚ) ≤ 2 ^ 20 := by exact_mod_cast hSmall
    gcongr
    linarith
  have hMean : 0 < exactSum weights weights.length / weights.length := by linarith
  have hLength : (0 : ℚ) < weights.length := Nat.cast_pos.mpr (length_pos_of_build hBuild)
  rwa [div_pos_iff_of_pos_right hLength] at hMean

/-- A running sum over the integral against the exact ratio, before the last rounding. -/
theorem ratio_error_le {k : Nat} {s : Single} (hSum : (sums weights)[k]? = some s)
    (hEdge : k ≤ weights.length) :
    |s.value / d.integral.value - exactSum weights k / exactSum weights weights.length| ≤
      (2 * weights.length + 5) / 2 ^ 24 := by
  obtain ⟨_, hWeights, _, _, _, _⟩ := build_eq_ok hBuild
  have hLength : (0 : ℚ) < weights.length := Nat.cast_pos.mpr (length_pos_of_build hBuild)
  have hPos : 0 < d.integral.value := lt_of_lt_of_le (by positivity) hLarge
  have hMono := exactSum_weights_mono hWeights
  have hRatio := ratio_error (a := s.value) (w := d.integral.value)
    (div_nonneg (hMono (Nat.zero_le k)) hLength.le)
    (div_le_div_of_nonneg_right (hMono hEdge) hLength.le) hPos
    (div_pos (exactSum_pos hSmall hBuild hLarge) hLength)
  rw [div_div_div_cancel_right₀ hLength.ne'] at hRatio
  calc _ ≤ _ := hRatio
    _ ≤ ((weights.length + 5 / 2) / 2 ^ 24 * d.integral.value +
        (weights.length + 5 / 2) / 2 ^ 24 * d.integral.value) / d.integral.value := by
        gcongr
        · exact sum_error_le hSmall hBuild hLarge hSum
        · exact sum_error_le hSmall hBuild hLarge (getElem?_sums_integral hBuild)
    _ = (2 * weights.length + 5) / 2 ^ 24 := by
        field_simp
        ring

end

/-- **Accuracy of the cumulative distribution.**  For up to `2 ^ 20` weights with an integral of at
least `2 ^ (-100)`, every entry lies within `(n + 1) * 2 ^ (-22)` of the exact sum of the weights
before it over the exact sum of all weights.  The magnitudes of the weights do not matter, nor how
many of their shares underflow. -/
theorem cdf_accurate (weights : List Single) (d : StepDensity) (hSmall : weights.length ≤ 2 ^ 20)
    (hBuild : build weights = .ok d) (hLarge : 1 / 2 ^ 100 ≤ d.integral.value) :
    0 < exactSum weights weights.length ∧
      ∀ k ≤ weights.length, ∃ c, d.cdf[k]? = some c ∧
        |c.value - exactSum weights k / exactSum weights weights.length| ≤
          (weights.length + 1) / 2 ^ 22 := by
  refine ⟨exactSum_pos hSmall hBuild hLarge, ?_⟩
  intro k hEdge
  obtain ⟨_, _, _, _, hFinite, _⟩ := build_eq_ok hBuild
  have hWord : weights.length < 2 ^ 64 := by omega
  have hPos : 0 < d.integral.value := lt_of_lt_of_le (by positivity) hLarge
  have hNonzero : d.integral.isZero = false := by
    by_contra hZero
    have hValue := ((Binary.isZero_iff _).mp (Bool.not_eq_false _ ▸ hZero)).2
    linarith
  obtain ⟨s, hSum⟩ := exists_sum hEdge
  refine ⟨_, cdf_eq_quotient hWord hBuild hNonzero hSum, ?_⟩
  obtain ⟨hLow, hHigh, hsFinite⟩ := sum_of_build hWord hBuild hSum
  have hQuotient := Binary.div_rounds s d.integral hsFinite hFinite hPos.ne'
  have hNonneg : 0 ≤ s.value / d.integral.value :=
    div_nonneg (Binary.value_nonneg_of_le hLow) hPos.le
  have hAtMost : s.value / d.integral.value ≤ 1 :=
    (div_le_one hPos).mpr (Binary.value_le_of_le hHigh)
  have hRounding := Single.error_le_of_le hQuotient
    (hQuotient.isFinite hNonneg (hAtMost.trans (by norm_num))) hNonneg hAtMost le_rfl
  have hOne : (1 : ℚ) ≤ weights.length := Nat.one_le_cast.mpr (length_pos_of_build hBuild)
  calc |(s / d.integral).value - exactSum weights k / exactSum weights weights.length|
      ≤ |(s / d.integral).value - s.value / d.integral.value| +
        |s.value / d.integral.value - exactSum weights k / exactSum weights weights.length| :=
        abs_sub_le _ _ _
    _ ≤ 1 / 2 ^ 24 * 1 + (2 * weights.length + 5) / 2 ^ 24 :=
        add_le_add hRounding (ratio_error_le hSmall hBuild hLarge hSum hEdge)
    _ ≤ (weights.length + 1) / 2 ^ 22 := by linarith

/-- The share of the least positive weight underflows, and the entry behind it stays zero. -/
theorem cdf_accurate_underflow :
    ∃ d, build [.ofBits .single 1, .ofNat .single 3, .zero] = .ok d ∧
      d.integral = Binary.one ∧ d.cdf[1]? = some Binary.zero ∧
      |(Binary.zero : Single).value - exactSum [.ofBits .single 1, .ofNat .single 3, .zero] 1 /
        exactSum [.ofBits .single 1, .ofNat .single 3, .zero] 3| ≤ (3 + 1) / 2 ^ 22 := by
  obtain ⟨d, hBuild, hIntegral, hSecond⟩ :
      ∃ d, build [.ofBits .single 1, .ofNat .single 3, .zero] = .ok d ∧ d.integral = Binary.one ∧
        d.cdf[1]? = some Binary.zero :=
    ⟨_, rfl, by decide +kernel, by decide +kernel⟩
  obtain ⟨_, hEntries⟩ := cdf_accurate _ d (by decide) hBuild
    (by rw [hIntegral, Binary.value_one]; norm_num)
  obtain ⟨c, hEntry, hError⟩ := hEntries 1 (by decide)
  obtain rfl := Option.some.inj (hSecond.symm.trans hEntry)
  exact ⟨d, hBuild, hIntegral, hSecond, hError⟩

end StepDensity

end StepSampling
