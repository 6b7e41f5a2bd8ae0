import StepSampling.Proofs.Binary.Errors
import StepSampling.Proofs.Density.Selection

/-!
# A sampled point against the exact inverse

Between its entries the cumulative distribution is taken as linear, and sampling inverts it.  The
exact inverse of a variate `u` in the segment of bin `k` is the point `(k + (u - cdf k) / (cdf (k +
1) - cdf k)) / n`, and the sampled point differs from it by rounding.

The two differences of the quotient have a small relative error however narrow the segment is, so
the place in the segment is accurate too.  Three more roundings lead to the coordinate.  The walks
into the bin then start close to a point of the bin, and they cannot move away from it: a walk that
moves at all ends within two roundings of the edge that it has passed.
-/

namespace StepSampling

/-- A quotient at most one of two quantities with the relative error `δ`. -/
private theorem quotient_error {a A w W δ : ℚ} (hA : 0 ≤ A) (hLe : A ≤ W) (hW : 0 < W) (hδ : 0 ≤ δ)
    (hSmall : 3 * δ ≤ 1) (ha : |a - A| ≤ δ * A) (hw : |w - W| ≤ δ * W) :
    |a / w - A / W| ≤ 3 * δ := by
  have hLower : 2 * W ≤ 3 * w := by
    have hBelow := (abs_le.mp hw).1
    nlinarith
  have hwPos : 0 < w := by linarith
  have hNumerator : |a * W - w * A| ≤ 2 * δ * (W * W) := by
    calc |a * W - w * A| = |(a - A) * W - A * (w - W)| := by ring_nf
      _ ≤ |(a - A) * W| + |A * (w - W)| := abs_sub _ _
      _ = |a - A| * W + A * |w - W| := by rw [abs_mul, abs_mul, abs_of_pos hW, abs_of_nonneg hA]
      _ ≤ δ * A * W + A * (δ * W) := by gcongr
      _ = 2 * δ * (A * W) := by ring
      _ ≤ 2 * δ * (W * W) := by gcongr
  rw [div_sub_div _ _ hwPos.ne' hW.ne', abs_div, abs_of_pos (mul_pos hwPos hW),
    div_le_iff₀ (mul_pos hwPos hW)]
  calc |a * W - w * A| ≤ 2 * δ * (W * W) := hNumerator
    _ = δ * (2 * W) * W := by ring
    _ ≤ δ * (3 * w) * W := by gcongr
    _ = 3 * δ * (w * W) := by ring

/-! ## How far a walk leads -/

namespace Bins

section

variable {n k : Nat} (hSmall : n ≤ 2 ^ 24) (hBin : k < n)

include hSmall hBin

/-- A number above bin `k` lies above the upper edge of the bin, or hardly below it. -/
theorem edge_le_of_lt_binOf {x : Single} (hNumber : x.isNaN = false) (hLow : 0 ≤ x.value)
    (hHigh : x.value ≤ 1) (hAbove : k < binOf x n) : ((k : ℚ) + 1) / n ≤ x.value + 1 / 2 ^ 24 := by
  have hWord : n < 2 ^ 64 := by omega
  have hPos : 1 ≤ n := by omega
  have hnPos : (0 : ℚ) < n := Nat.cast_pos.mpr hPos
  have hLast := binOf_lt x hPos
  have hReached := (le_binOf_iff hPos hWord hNumber (j := k + 1) (by omega) (by omega)).mp hAbove
  have hProduct := scaled_rounds hPos hWord x hNumber
  rw [Binary.value_ofNat_single hSmall] at hProduct
  have hNonneg : 0 ≤ x.value * n := mul_nonneg hLow hnPos.le
  have hLe : x.value * n ≤ n := mul_le_of_le_one_left hnPos.le hHigh
  have hCount : (n : ℚ) ≤ 2 ^ 24 := by exact_mod_cast hSmall
  have hFinite := hProduct.isFinite hNonneg (by linarith [show (2 : ℚ) ^ 24 ≤ 2 ^ 100 by norm_num])
  have hError := (abs_le.mp (Single.error_le_of_le hProduct hFinite hNonneg hLe
    (Nat.one_le_cast.mpr hPos))).2
  rw [div_le_iff₀ hnPos]
  push_cast at hReached
  linarith

/-- The walk down stays where it starts or stops hardly below the upper edge of the bin. -/
theorem le_value_lower {x : Single} (hNumber : x.isNaN = false) (hLow : 0 ≤ x.value)
    (hHigh : x.value < 1) :
    0 ≤ (lower k n x).value ∧
      ((lower k n x).value = x.value ∨ (k + 1 : ℚ) / n ≤ (lower k n x).value + 2 / 2 ^ 24) := by
  have hWord : n < 2 ^ 64 := by omega
  have hPos : 1 ≤ n := by omega
  obtain ⟨hStop, hLe, _, hPassed⟩ := lower_spec (k := k) hPos hWord x hNumber
  have hyLow := value_lower_nonneg (k := k) hPos hWord hNumber hLow
  generalize lower k n x = y at hStop hLe hPassed hyLow ⊢
  have hyHigh : y.value < 1 := (Binary.value_le_iff_key.mpr hLe).trans_lt hHigh
  refine ⟨hyLow, ?_⟩
  rcases Int.lt_or_eq_of_le hLe with hMoved | hSame
  · right
    have hUp := Binary.key_up y hStop
    have hTop := Binary.key_le_top x
    have hUpNumber : y.up.isNaN = false := by rw [Binary.isNaN_up]; exact hStop
    have hAbove := hPassed y.up hUpNumber (by omega) (by omega)
    have hUpHigh : y.up.value ≤ x.value := Binary.value_le_iff_key.mpr (by omega)
    have hUpLow : y.value ≤ y.up.value := Binary.value_le_iff_key.mpr (by omega)
    have hStep := value_up_le hStop hyLow hyHigh
    have hEdge := edge_le_of_lt_binOf hSmall hBin hUpNumber (by linarith) (by linarith) hAbove
    linarith
  · left
    rw [Binary.value, Binary.value, hSame]

/-- The walk up stays where it starts or stops hardly above the lower edge of the bin. -/
theorem value_raise_le {x : Single} (hNumber : x.isNaN = false) (hLow : 0 ≤ x.value) :
    x.value ≤ (raise k n x).value ∧
      ((raise k n x).value = x.value ∨ (raise k n x).value ≤ k / n + 1 / 2 ^ 24) := by
  have hWord : n < 2 ^ 64 := by omega
  have hPos : 1 ≤ n := by omega
  obtain ⟨hStop, hGe, _, hPassed⟩ := raise_spec hPos hWord hBin x hNumber
  generalize raise k n x = y at hStop hGe hPassed ⊢
  refine ⟨Binary.value_le_iff_key.mpr hGe, ?_⟩
  rcases Int.lt_or_eq_of_le hGe with hMoved | hSame
  · right
    have hDown := Binary.key_down y hStop
    have hBottom := Binary.neg_top_le_key x
    have hDownNumber : y.down.isNaN = false := by rw [Binary.isNaN_down]; exact hStop
    have hBelow := hPassed y.down hDownNumber (by omega) (by omega)
    have hEdge : y.down.value < k / n :=
      (lt_div_iff₀ (Nat.cast_pos.mpr hPos)).mpr
        (mul_lt_of_binOf_lt hPos hSmall hDownNumber hBin hBelow)
    have hDownLow : x.value ≤ y.down.value := Binary.value_le_iff_key.mpr (by omega)
    have hEdgeHigh : (k : ℚ) / n ≤ 1 := by
      rw [div_le_one (Nat.cast_pos.mpr hPos)]
      exact_mod_cast hBin.le
    have hStep := value_up_le hDownNumber (by linarith) (by linarith)
    have hUp : y.down.up.value = y.value :=
      Binary.value_eq_iff_key.mpr (Binary.key_up_down hStop (by omega))
    linarith
  · left
    rw [Binary.value, Binary.value, hSame]

/-- A walk that starts near a point of the bin stays near it. -/
theorem walk_error {x : Single} (hNumber : x.isNaN = false) (hLow : 0 ≤ x.value)
    (hHigh : x.value < 1) {q ε : ℚ} (hFrom : k / n ≤ q) (hTo : q ≤ (k + 1) / n)
    (hNear : |x.value - q| ≤ ε) (hSteps : 2 / 2 ^ 24 ≤ ε) : |(walk k n x).value - q| ≤ ε := by
  obtain ⟨hBelow, hAbove⟩ := abs_le.mp hNear
  obtain ⟨hStop, hLe, _⟩ := lower_spec (k := k) (by omega : 1 ≤ n) (by omega) x hNumber
  have hLowerLe : (lower k n x).value ≤ x.value := Binary.value_le_iff_key.mpr hLe
  obtain ⟨hLowerLow, hLower⟩ := le_value_lower hSmall hBin hNumber hLow hHigh
  obtain ⟨hRaiseGe, hRaise⟩ := value_raise_le hSmall hBin hStop hLowerLow
  rw [walk, abs_le]
  constructor
  · rcases hLower with hSame | hEdge <;> linarith
  · rcases hRaise with hSame | hEdge <;> linarith

end

end Bins

namespace StepDensity

/-! ## The place and the coordinate -/

/-- The place of a variate in its segment, against the exact one. -/
theorem position_error {u low high : Single} (hu : u.isFinite = true) (hLow : low.isFinite = true)
    (hHigh : high.isFinite = true) (hLowNonneg : 0 ≤ low.value) (hHighOne : high.value ≤ 1)
    (hFrom : low.value ≤ u.value) (hTo : u.value < high.value) {d : StepDensity} {k : Nat}
    (hLowEntry : d.cdf[k]? = some low) (hHighEntry : d.cdf[k + 1]? = some high) {t : Single}
    (hPlace : d.position u k = .ok t) :
    |t.value - (u.value - low.value) / (high.value - low.value)| ≤ 4 / 2 ^ 24 := by
  have hLarge : (1 : ℚ) ≤ 2 ^ 100 := by norm_num
  have hPart := Binary.sub_rounds u low hu hLow
  have hWhole := Binary.sub_rounds high low hHigh hLow
  have hPartFinite := hPart.isFinite (by linarith) (by linarith)
  have hWholeFinite := hWhole.isFinite (by linarith) (by linarith)
  have hPartError := Single.sub_error hu hLow hFrom hPartFinite
  have hWholeError := Single.sub_error hHigh hLow (by linarith) hWholeFinite
  have hWidth : 0 < (high - low).value := by
    have hBelow := (abs_le.mp hWholeError).1
    linarith
  -- the rounded differences keep their order, so the clamp has nothing to do
  have hOrder : (u - low).value / (high - low).value ≤ 1 :=
    (div_le_one hWidth).mpr (hPart.value_mono hWhole (by linarith))
  have hRatioLow : 0 ≤ (u - low).value / (high - low).value :=
    div_nonneg (hPart.value_nonneg (by linarith)) hWidth.le
  have hRatio := Binary.div_rounds _ _ hPartFinite hWholeFinite hWidth.ne'
  have hRatioFinite := hRatio.isFinite hRatioLow (by linarith)
  have hClamped : t = (u - low) / (high - low) := by
    rw [position_eq hLowEntry hHighEntry, if_pos (Binary.zero_lt_iff.mpr ⟨hWhole.1, hWidth⟩),
      Except.ok.injEq] at hPlace
    rw [← hPlace, clamp, if_neg, if_neg]
    · rw [Binary.lt_iff_value, not_and, not_and, not_lt]
      intro _ _
      exact hRatio.value_le rfl (by rw [Binary.value_one]; exact hOrder)
    · rw [Binary.lt_iff_value, not_and, not_and, not_lt, Binary.value_zero]
      intro _ _
      exact hRatio.value_nonneg hRatioLow
  have hLast := Single.error_le_of_le hRatio hRatioFinite hRatioLow hOrder le_rfl
  have hFirst := quotient_error (sub_nonneg.mpr hFrom) (by linarith) (by linarith) (by positivity)
    (by norm_num) hPartError hWholeError
  rw [hClamped]
  calc |((u - low) / (high - low)).value - (u.value - low.value) / (high.value - low.value)|
      ≤ |((u - low) / (high - low)).value - (u - low).value / (high - low).value| +
        |(u - low).value / (high - low).value -
          (u.value - low.value) / (high.value - low.value)| := abs_sub_le _ _ _
    _ ≤ 1 / 2 ^ 24 * 1 + 3 * (1 / 2 ^ 24) := add_le_add hLast hFirst
    _ = 4 / 2 ^ 24 := by norm_num

/-- Keeping a number up to one below one moves it by at most one rounding. -/
theorem lesser_belowOne_error {x : Single} (hNumber : x.isNaN = false)
    (hHigh : x.value ≤ (Binary.one : Single).value) :
    |(lesser x Single.belowOne).value - x.value| ≤ 1 / 2 ^ 24 := by
  unfold lesser
  split
  · rw [sub_self, abs_zero]
    positivity
  · next hNot =>
    have hLe := Binary.value_le_of_le (Binary.le_of_not_lt hNumber rfl hNot)
    rw [Single.value_belowOne] at hLe ⊢
    rw [Binary.value_one] at hHigh
    rw [abs_le]
    constructor <;> linarith

/-- The coordinate of a place in a bin, against the exact one. -/
theorem coordinate_error {k n : Nat} (hSmall : n ≤ 2 ^ 24) (hBin : k < n) {t : Single}
    (hNumber : t.isNaN = false) (hLow : 0 ≤ t.value) (hHigh : t.value ≤ 1) :
    |(coordinate k n t).value - (k + t.value) / n| ≤ 3 / 2 ^ 24 := by
  have hnPos : (0 : ℚ) < n := Nat.cast_pos.mpr (by omega)
  have hnOne : (1 : ℚ) ≤ n := Nat.one_le_cast.mpr (by omega)
  have hCount := Binary.value_ofNat_single hSmall
  have hStart := Binary.value_ofNat_single (n := k) (by omega)
  obtain ⟨hFinite, _⟩ := Binary.count_isFinite (F := .single) n (by omega) (by omega)
  obtain ⟨hSum, hSumFinite, hSumLow⟩ := start_add (k := k) (by omega) hNumber hLow hHigh
  have hRatio := Binary.div_rounds _ _ hSumFinite hFinite (by rw [hCount]; exact hnPos.ne')
  rw [hStart] at hSum
  rw [hCount] at hRatio
  have hNext : (k : ℚ) + 1 ≤ n := by exact_mod_cast hBin
  have hSumHigh : (Binary.ofNat .single k + t).value ≤ n := by
    rw [← hCount]
    exact hSum.value_le rfl (by rw [hCount]; linarith)
  have hNextRaw : (Binary.ofNat .single k + t).value / n ≤ 1 := (div_le_one hnPos).mpr hSumHigh
  have hRatioFinite := hRatio.isFinite (div_nonneg hSumLow hnPos.le) (hNextRaw.trans (by norm_num))
  have hFirst : |(Binary.ofNat .single k + t).value / n - (k + t.value) / n| ≤ 1 / 2 ^ 24 := by
    rw [← sub_div, abs_div, abs_of_pos hnPos, div_le_iff₀ hnPos]
    exact Single.error_le_of_le hSum hSumFinite (by positivity) (by linarith) hnOne
  have hSecond := Single.error_le_of_le hRatio hRatioFinite (div_nonneg hSumLow hnPos.le) hNextRaw
    le_rfl
  have hThird := lesser_belowOne_error hRatio.1
    (hRatio.value_le rfl (by rw [Binary.value_one]; exact hNextRaw))
  rw [abs_le] at hFirst hSecond hThird ⊢
  rw [coordinate]
  constructor <;> linarith [hFirst.1, hFirst.2, hSecond.1, hSecond.2, hThird.1, hThird.2]

/-- The coordinate of a place in a bin, against that of an exact place nearby. -/
theorem coordinate_near {k n : Nat} (hSmall : n ≤ 2 ^ 24) (hBin : k < n) {t : Single}
    (hNumber : t.isNaN = false) (hLow : 0 ≤ t.value) (hHigh : t.value ≤ 1) {q : ℚ}
    (hNear : |t.value - q| ≤ 4 / 2 ^ 24) :
    |(coordinate k n t).value - (k + q) / n| ≤ 7 / 2 ^ 24 := by
  have hnPos : (0 : ℚ) < n := Nat.cast_pos.mpr (by omega)
  have hScaled : |(k + t.value) / n - (k + q) / n| ≤ 4 / 2 ^ 24 := by
    rw [← sub_div, add_sub_add_left_eq_sub, abs_div, abs_of_pos hnPos, div_le_iff₀ hnPos]
    exact hNear.trans (le_mul_of_one_le_right (by norm_num) (Nat.one_le_cast.mpr (by omega)))
  calc |(coordinate k n t).value - (k + q) / n|
      ≤ |(coordinate k n t).value - (k + t.value) / n| + |(k + t.value) / n - (k + q) / n| :=
        abs_sub_le _ _ _
    _ ≤ 3 / 2 ^ 24 + 4 / 2 ^ 24 :=
        add_le_add (coordinate_error hSmall hBin hNumber hLow hHigh) hScaled
    _ = 7 / 2 ^ 24 := by norm_num

/-- **Accurate inversion.** For up to `2 ^ 22` weights and every variate of the half-open unit
interval, the sampled point lies within `2 ^ (-20)` of the exact inverse of the cumulative
distribution, computed from its entries around the variate without rounding.  The entries differ,
however narrow the segment between them may be. -/
theorem sample_accurate (weights : List Single) (d : StepDensity)
    (hSmall : weights.length ≤ 2 ^ 22) (hBuild : build weights = .ok d) (u : Single)
    (hLow : Binary.zero ≤ u) (hHigh : u < Binary.one) :
    ∃ draw low high, d.sample u = .ok draw ∧ d.bin u = .ok draw.bin ∧
      d.cdf[draw.bin]? = some low ∧ d.cdf[draw.bin + 1]? = some high ∧ low.value < high.value ∧
      |draw.x.value - (draw.bin + (u.value - low.value) / (high.value - low.value)) /
        weights.length| ≤ 1 / 2 ^ 20 := by
  have hWord : weights.length < 2 ^ 64 := by omega
  have hCdf := cdf_isCumulative hWord hBuild
  obtain ⟨k, t, p, hSelected, hBin, hPlace, htNumber, htLow, htHigh, _, hSample⟩ :=
    sample_eq_walk hBuild hWord hLow.2.1
  obtain ⟨low, high, hLowEntry, hHighEntry, hFrom, hTo⟩ :=
    bin_brackets hCdf (length_pos_of_build hBuild) hLow hHigh hSelected
  obtain ⟨_, hEntry, hLowFinite, hLowNonneg, _⟩ := cdf_entry hCdf (show k ≤ _ by omega)
  obtain rfl := Option.some.inj (hLowEntry.symm.trans hEntry)
  obtain ⟨_, hEntry', hHighFinite, _, hHighOne⟩ := cdf_entry hCdf (show k + 1 ≤ _ by omega)
  obtain rfl := Option.some.inj (hHighEntry.symm.trans hEntry')
  have huFinite := Binary.isFinite_of_le hLow ⟨hHigh.1, hHigh.2.1, hHigh.2.2.le⟩ Binary.isFinite_one
  have hFromValue := Binary.value_le_of_le hFrom
  have hToValue := (Binary.lt_iff_value.mp hTo).2.2
  refine ⟨_, low, high, hSample, hSelected, hLowEntry, hHighEntry, by linarith, ?_⟩
  have hPlaceError := position_error huFinite hLowFinite hHighFinite hLowNonneg hHighOne hFromValue
    hToValue hLowEntry hHighEntry hPlace
  have hLower : 0 ≤ (u.value - low.value) / (high.value - low.value) :=
    div_nonneg (by linarith) (by linarith)
  have hUpper : (u.value - low.value) / (high.value - low.value) ≤ 1 :=
    (div_le_one (by linarith)).mpr (by linarith)
  generalize (u.value - low.value) / (high.value - low.value) = q at hPlaceError hLower hUpper ⊢
  obtain ⟨hNumber, hRawLow, hRawHigh⟩ := coordinate_range hBin hWord htNumber htLow htHigh
  rw [Single.value_belowOne] at hRawHigh
  have hnPos : (0 : ℚ) < weights.length := Nat.cast_pos.mpr (by omega)
  refine Bins.walk_error (by omega) hBin hNumber hRawLow (by linarith) ?_ ?_ ?_ (by norm_num)
  · exact div_le_div_of_nonneg_right (by linarith) hnPos.le
  · exact div_le_div_of_nonneg_right (by linarith) hnPos.le
  · exact (coordinate_near (by omega) hBin htNumber htLow htHigh hPlaceError).trans (by norm_num)

/-- A segment of two units, cut in the middle by the least positive variate. -/
theorem sample_accurate_subnormal :
    ∃ d draw low high, build [.ofBits .single 2, .one] = .ok d ∧
      Binary.zero < Binary.ofBits .single 1 ∧ d.sample (.ofBits .single 1) = .ok draw ∧
      d.cdf[draw.bin]? = some low ∧ d.cdf[draw.bin + 1]? = some high ∧
      |draw.x.value - (draw.bin + ((Binary.ofBits .single 1).value - low.value) /
        (high.value - low.value)) / 2| ≤ 1 / 2 ^ 20 := by
  obtain ⟨draw, low, high, hSample, _, hLow, hHigh, _, hError⟩ := sample_accurate
    [.ofBits .single 2, .one] _ (by decide) rfl (.ofBits .single 1) (by decide) (by decide)
  exact ⟨_, draw, low, high, rfl, by decide, hSample, hLow, hHigh, hError⟩

end StepDensity

end StepSampling
