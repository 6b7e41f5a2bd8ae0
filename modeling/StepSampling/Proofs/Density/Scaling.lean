import StepSampling.Proofs.Binary.Scaling
import StepSampling.Proofs.Density.Acceptance
import StepSampling.Proofs.Density.Queries

/-!
# Weights in another unit

Weights need not be normalised, so a density should not depend on the unit they are given in.  For a
unit that is a power of two it does not, bit for bit, as long as no share is subnormal and no sum
overflows: the weights, their shares, the running sums and the integral are all multiplied by that
power, and the two quotients that are ever looked at, of a sum or of a weight by the integral, stay the
same.

The queries read nothing else of a density than its cumulative distribution, the number of its bins and
the densities in them (`queries_congr`).
-/

namespace StepSampling

/-- If the number is positive, it lies between `2 ^ (-100)` and `2 ^ 100`, and so does its product with
`2 ^ k`. -/
def Single.ScalesBy (k : ℤ) (w : Single) : Prop :=
  Binary.zero < w → 1 / 2 ^ 100 ≤ w.value ∧ w.value ≤ 2 ^ 100 ∧
    1 / 2 ^ 100 ≤ 2 ^ k * w.value ∧ 2 ^ k * w.value ≤ 2 ^ 100

namespace Single.ScalesBy

variable {k : ℤ} {w : Single} (h : w.ScalesBy k) (hWeight : w.isWeight = true)

include h hWeight

/-- A weight is zero or in the range. -/
theorem zero_or_range : w.value = 0 ∨ (1 / 2 ^ 100 ≤ w.value ∧ w.value ≤ 2 ^ 100) ∧
    1 / 2 ^ 100 ≤ 2 ^ k * w.value ∧ 2 ^ k * w.value ≤ 2 ^ 100 := by
  obtain ⟨hNumber, hNonneg⟩ := Binary.zero_le_iff.mp (w.isWeight_iff.mp hWeight).2
  rcases hNonneg.eq_or_lt with hZero | hPos
  · exact .inl hZero.symm
  · exact .inr (and_assoc.mpr (h (Binary.zero_lt_iff.mpr ⟨hNumber, hPos⟩)))

theorem value_le : w.value ≤ 2 ^ 100 ∧ 2 ^ k * w.value ≤ 2 ^ 100 := by
  rcases h.zero_or_range hWeight with hZero | ⟨⟨_, hHigh⟩, _, hHigh'⟩
  · simp [hZero]
  · exact ⟨hHigh, hHigh'⟩

theorem isFinite_timesTwoPow : (w.timesTwoPow k).isFinite = true := by
  apply (Binary.timesTwoPow_rounds k (w.isWeight_iff.mp hWeight).1).isFinite
  · exact mul_nonneg (by positivity) (Binary.value_nonneg_of_le (w.isWeight_iff.mp hWeight).2)
  · exact (h.value_le hWeight).2

/-- The product is exact. -/
theorem isScaled : Binary.IsScaled k w (w.timesTwoPow k) := by
  have hFinite := (w.isWeight_iff.mp hWeight).1
  apply (Binary.rounds_value w (Binary.isNaN_of_isFinite hFinite)).isScaled
    (Binary.timesTwoPow_rounds k hFinite) hFinite (h.isFinite_timesTwoPow hWeight) rfl
  rw [Single.leastNormal_eq]
  rcases h.zero_or_range hWeight with hZero | ⟨⟨hLow, _⟩, hScaled, _⟩
  · exact .inl hZero
  · exact .inr ⟨le_trans (by norm_num) hLow, le_trans (by norm_num) hScaled⟩

theorem isWeight_timesTwoPow : Single.isWeight (w.timesTwoPow k) = true := by
  have hFinite := h.isFinite_timesTwoPow hWeight
  have hScaled := h.isScaled hWeight
  refine (Single.isWeight_iff _).mpr
    ⟨hFinite, Binary.zero_le_iff.mpr ⟨Binary.isNaN_of_isFinite hFinite, ?_⟩⟩
  rw [hScaled.value_eq]
  exact mul_nonneg (by positivity) hScaled.nonneg

/-- The shares of up to `2 ^ 20` weights are not subnormal. -/
theorem div_isScaled {n : Nat} (hPos : 1 ≤ n) (hSmall : n ≤ 2 ^ 20) :
    Binary.IsScaled k (w / Binary.ofNat .single n) (w.timesTwoPow k / Binary.ofNat .single n) := by
  obtain ⟨hCount, hOne⟩ := Binary.count_isFinite (F := .single) n hPos (by omega)
  have hScaled := h.isScaled hWeight
  have hWeight' := h.isWeight_timesTwoPow hWeight
  obtain ⟨_, hShare⟩ := StepDensity.share_rounds hCount hOne hWeight
  obtain ⟨_, hShare'⟩ := StepDensity.share_rounds hCount hOne hWeight'
  apply hShare.isScaled hShare' (StepDensity.share_nonneg hCount hOne hWeight).2
    (StepDensity.share_nonneg hCount hOne hWeight').2
  · rw [hScaled.value_eq, mul_div_assoc]
  · rw [hScaled.value_eq, Binary.value_ofNat_single (by omega), Single.leastNormal_eq]
    have hn : (0 : ℚ) < n := Nat.cast_pos.mpr hPos
    have hLong : (n : ℚ) ≤ 2 ^ 20 := by exact_mod_cast hSmall
    rcases h.zero_or_range hWeight with hZero | ⟨⟨hLow, _⟩, hLow', _⟩
    · exact .inl (by rw [hZero, zero_div])
    · rw [le_div_iff₀ hn, le_div_iff₀ hn]
      exact .inr ⟨by linarith, by linarith⟩

end Single.ScalesBy

namespace StepDensity

/-! ## Two densities with the same answers -/

/-- The queries read the cumulative distribution, the number of bins and their densities only. -/
theorem queries_congr {d e : StepDensity} (hCdf : e.cdf = d.cdf) (hCount : e.count = d.count)
    (hDensity : e.density = d.density) :
    e.probability = d.probability ∧ e.densityAt = d.densityAt ∧ e.select = d.select ∧
      e.selectRemapped = d.selectRemapped ∧ e.sample = d.sample := by
  have hBin : e.bin = d.bin := by
    funext u
    rw [bin, bin, hCdf]
  have hPosition : e.position = d.position := by
    funext u k
    rw [position, position, hCdf]
  have hProbability : e.probability = d.probability := by
    funext k
    rw [probability, probability, hCount, hDensity]
  refine ⟨hProbability, ?_, ?_, ?_, ?_⟩
  · funext x
    rw [densityAt, densityAt, hCount, hDensity]
  · funext u
    rw [select, select, hBin, hProbability]
  · funext u
    rw [selectRemapped, selectRemapped, hBin, hPosition, hProbability]
  · funext u
    rw [sample, sample, hBin, hPosition, hCount, hDensity]

/-! ## Two runs -/

section

variable {weights : List Single} {k : ℤ} {d e : StepDensity} (hSmall : weights.length ≤ 2 ^ 20)
  (hScales : ∀ w ∈ weights, w.ScalesBy k) (hBuild : build weights = .ok d)
  (hScaled : build (weights.map (·.timesTwoPow k)) = .ok e)

include hSmall hScales hBuild

theorem shares_isScaled {i : Nat} {q r : Single} (hShare : (shares weights)[i]? = some q)
    (hShare' : (shares (weights.map (·.timesTwoPow k)))[i]? = some r) : Binary.IsScaled k q r := by
  obtain ⟨_, hWeights, _, _, _, _⟩ := build_eq_ok hBuild
  simp only [shares, List.getElem?_map, List.length_map, Option.map_eq_some_iff] at hShare hShare'
  obtain ⟨w, hw, rfl⟩ := hShare
  obtain ⟨_, ⟨v, hv, rfl⟩, rfl⟩ := hShare'
  obtain rfl := Option.some.inj (hw.symm.trans hv)
  have hMem := List.mem_of_getElem? hw
  exact (hScales w hMem).div_isScaled (hWeights w hMem) (length_pos_of_build hBuild) hSmall

include hScaled

/-- Each running sum is multiplied.  That both densities are built keeps all sums finite. -/
theorem sums_isScaled {i : Nat} {s t : Single} (hSum : (sums weights)[i]? = some s)
    (hSum' : (sums (weights.map (·.timesTwoPow k)))[i]? = some t) : Binary.IsScaled k s t := by
  have hWord : weights.length < 2 ^ 64 := by omega
  have hWord' : (weights.map (·.timesTwoPow k)).length < 2 ^ 64 := by rwa [List.length_map]
  induction i generalizing s t with
  | zero =>
      rw [sums_zero, Option.some.injEq] at hSum hSum'
      rw [← hSum, ← hSum']
      exact ⟨by rw [Binary.value_zero, mul_zero], .inl Binary.value_zero⟩
  | succ i ih =>
      have hFinite := (sum_of_build hWord hBuild hSum).2.2
      have hFinite' := (sum_of_build hWord' hScaled hSum').2.2
      obtain ⟨hNonempty, hWeights, _, _, _, _⟩ := build_eq_ok hBuild
      obtain ⟨hNonempty', hWeights', _, _, _, _⟩ := build_eq_ok hScaled
      obtain ⟨a, q, hBefore, hShare, rfl, ha, hq, _⟩ :=
        step_of_finite hNonempty hWord hWeights hSum hFinite
      obtain ⟨b, r, hBefore', hShare', rfl, hb, hr, _⟩ :=
        step_of_finite hNonempty' hWord' hWeights' hSum' hFinite'
      exact (ih hBefore hBefore').add (shares_isScaled hSmall hScales hBuild hShare hShare')
        ha hb hq hr hFinite hFinite'

theorem integral_isScaled : Binary.IsScaled k d.integral e.integral := by
  have hLast := getElem?_sums_integral hScaled
  rw [List.length_map] at hLast
  exact sums_isScaled hSmall hScales hBuild hScaled (getElem?_sums_integral hBuild) hLast

theorem scaled_isUniform_eq : e.isUniform = d.isUniform := by
  obtain ⟨_, _, _, _, hFinite, _⟩ := build_eq_ok hBuild
  obtain ⟨_, _, _, _, hFinite', _⟩ := build_eq_ok hScaled
  exact (integral_isScaled hSmall hScales hBuild hScaled).isZero_eq
    (Binary.isNaN_of_isFinite hFinite) (Binary.isNaN_of_isFinite hFinite')

/-- The quotients of the sums do not change. -/
theorem scaled_cdf_eq : e.cdf = d.cdf := by
  have hWord : weights.length < 2 ^ 64 := by omega
  have hWord' : (weights.map (·.timesTwoPow k)).length < 2 ^ 64 := by rwa [List.length_map]
  obtain ⟨hNonempty, hWeights, _, _, hFinite, hCdf⟩ := build_eq_ok hBuild
  obtain ⟨hNonempty', hWeights', _, _, hFinite', hCdf'⟩ := build_eq_ok hScaled
  have hUniform : e.integral.isZero = d.integral.isZero :=
    scaled_isUniform_eq hSmall hScales hBuild hScaled
  cases hZero : d.integral.isZero with
  | true => rw [hCdf, hCdf', hUniform, hZero, if_pos rfl, if_pos rfl, List.length_map]
  | false =>
      have hSize := (cdf_isCumulative hWord hBuild).length_eq
      have hSize' := (cdf_isCumulative hWord' hScaled).length_eq
      rw [List.length_map, Array.length_toList] at hSize'
      rw [Array.length_toList] at hSize
      -- every entry is the quotient of its sum, also those behind the last positive weight
      apply Array.ext_getElem?
      intro i
      by_cases hIndex : i ≤ weights.length
      · obtain ⟨s, hSum⟩ := exists_sum hIndex
        obtain ⟨t, hSum'⟩ : ∃ t, (sums (weights.map (·.timesTwoPow k)))[i]? = some t :=
          exists_sum (by rwa [List.length_map])
        have hs := (sum_of_build hWord hBuild hSum).2.2
        have ht := (sum_of_build hWord' hScaled hSum').2.2
        obtain ⟨_, _, hSign⟩ := sums_range hNonempty hWord hWeights (List.mem_of_getElem? hSum)
        obtain ⟨_, _, hSign'⟩ := sums_range hNonempty' hWord' hWeights' (List.mem_of_getElem? hSum')
        rw [cdf_eq_quotient hWord hBuild hZero hSum,
          cdf_eq_quotient hWord' hScaled (hUniform.trans hZero) hSum',
          (sums_isScaled hSmall hScales hBuild hScaled hSum hSum').div_eq
            (integral_isScaled hSmall hScales hBuild hScaled) hs ht hFinite hFinite'
            (integral_pos hWord hBuild hZero) (hSign'.trans hSign.symm)]
      · rw [Array.getElem?_eq_none (by omega), Array.getElem?_eq_none (by omega)]

/-- The quotients of the weights do not change. -/
theorem scaled_density_eq : e.density = d.density := by
  obtain ⟨_, hWeights, hKept, _, hFinite, _⟩ := build_eq_ok hBuild
  obtain ⟨_, _, hKept', _, hFinite', _⟩ := build_eq_ok hScaled
  have hIntegral := integral_isScaled hSmall hScales hBuild hScaled
  have hPositive : Binary.zero < e.integral ↔ Binary.zero < d.integral := by
    rw [Binary.zero_lt_iff, Binary.zero_lt_iff, hIntegral.pos_iff, Binary.isNaN_of_isFinite hFinite,
      Binary.isNaN_of_isFinite hFinite']
  funext i
  by_cases hPos : Binary.zero < d.integral
  · by_cases hIndex : i < weights.length
    · have hMem := List.getElem_mem hIndex
      have hWeight := hWeights _ hMem
      have hScale := hScales _ hMem
      rw [density_of_integral_pos hPos (w := weights[i]) (by simp [hKept, hIndex]),
        density_of_integral_pos (hPositive.mpr hPos) (w := weights[i].timesTwoPow k)
          (by simp [hKept', hIndex]),
        (hScale.isScaled hWeight).div_eq hIntegral ((Single.isWeight_iff _).mp hWeight).1
          (hScale.isFinite_timesTwoPow hWeight) hFinite hFinite' (Binary.zero_lt_iff.mp hPos).2
          (Binary.negative_timesTwoPow k _)]
    · rw [density, density, if_pos hPos, if_pos (hPositive.mpr hPos), fetch, fetch, hKept, hKept']
      simp [hIndex, Except.map]
  · rw [density, density, if_neg hPos, if_neg (hPositive.not.mpr hPos)]

end

/-- **Weights in another unit.**  For up to `2 ^ 20` weights, of which every positive one lies between
`2 ^ (-100)` and `2 ^ 100` and stays there when it is multiplied by `2 ^ k`, the products are exact, both
densities are built, the second integral is exactly `2 ^ k` times the first, and everything else is the
same to the last bit: the cumulative distribution, the choice of equally likely bins, and the answers of
all queries, faults included. -/
theorem build_timesTwoPow (weights : List Single) (k : ℤ) (hNonempty : weights ≠ [])
    (hSmall : weights.length ≤ 2 ^ 20) (hWeights : ∀ w ∈ weights, w.isFinite = true ∧ Binary.zero ≤ w)
    (hRange : ∀ w ∈ weights, Binary.zero < w → 1 / 2 ^ 100 ≤ w.value ∧ w.value ≤ 2 ^ 100 ∧
      1 / 2 ^ 100 ≤ 2 ^ k * w.value ∧ 2 ^ k * w.value ≤ 2 ^ 100) :
    (∀ w ∈ weights, (w.timesTwoPow k).value = 2 ^ k * w.value ∧
      (w.timesTwoPow k).negative = w.negative) ∧
    ∃ d e, build weights = .ok d ∧ build (weights.map (·.timesTwoPow k)) = .ok e ∧
      e.cdf = d.cdf ∧ e.isUniform = d.isUniform ∧ (∀ i, e.probability i = d.probability i) ∧
      (∀ x, e.densityAt x = d.densityAt x) ∧ (∀ u, e.select u = d.select u) ∧
      (∀ u, e.selectRemapped u = d.selectRemapped u) ∧ (∀ u, e.sample u = d.sample u) ∧
      e.integral.value = 2 ^ k * d.integral.value := by
  simp only [← Single.isWeight_iff] at hWeights
  have hScales : ∀ w ∈ weights, w.ScalesBy k := hRange
  obtain ⟨d, hBuild⟩ : ∃ d, build weights = .ok d := by
    apply exists_build_of_le hNonempty (by omega) hWeights
    intro w hMem
    exact ((hScales w hMem).value_le (hWeights w hMem)).1.trans (by norm_num)
  obtain ⟨e, hScaled⟩ : ∃ e, build (weights.map (·.timesTwoPow k)) = .ok e := by
    apply exists_build_of_le (by simpa using hNonempty) (by rw [List.length_map]; omega) <;>
      rw [List.forall_mem_map] <;> intro w hMem
    · exact (hScales w hMem).isWeight_timesTwoPow (hWeights w hMem)
    · rw [((hScales w hMem).isScaled (hWeights w hMem)).value_eq]
      exact ((hScales w hMem).value_le (hWeights w hMem)).2.trans (by norm_num)
  have hCdf := scaled_cdf_eq hSmall hScales hBuild hScaled
  have hCount : e.count = d.count := by rw [count_eq hBuild, count_eq hScaled, List.length_map]
  obtain ⟨hProbability, hDensityAt, hSelect, hRemapped, hSample⟩ :=
    queries_congr hCdf hCount (scaled_density_eq hSmall hScales hBuild hScaled)
  refine ⟨?_, d, e, hBuild, hScaled, hCdf, scaled_isUniform_eq hSmall hScales hBuild hScaled,
    congrFun hProbability, congrFun hDensityAt, congrFun hSelect, congrFun hRemapped,
    congrFun hSample, (integral_isScaled hSmall hScales hBuild hScaled).value_eq⟩
  intro w hMem
  exact ⟨((hScales w hMem).isScaled (hWeights w hMem)).value_eq, Binary.negative_timesTwoPow k w⟩

/-- Three, the two zeros and one, in a unit that is eight times as large. -/
theorem build_timesTwoPow_eighth :
    ∃ d e, build [.ofNat .single 3, .zero, -.zero, .one] = .ok d ∧
      build ([.ofNat .single 3, .zero, -.zero, .one].map (Binary.timesTwoPow (-3))) = .ok e ∧
      e.cdf = d.cdf ∧ (∀ u, e.sample u = d.sample u) ∧
      e.integral.value = 2 ^ (-3 : ℤ) * d.integral.value := by
  have hThree : (Binary.ofNat .single 3).value = 3 := Binary.value_ofNat_single (by decide)
  have hRange : ∀ w ∈ [Binary.ofNat .single 3, .zero, -.zero, .one], Binary.zero < w →
      1 / 2 ^ 100 ≤ w.value ∧ w.value ≤ 2 ^ 100 ∧ 1 / 2 ^ 100 ≤ 2 ^ (-3 : ℤ) * w.value ∧
        2 ^ (-3 : ℤ) * w.value ≤ 2 ^ 100 := by
    intro w hMem hPos
    have hValue := (Binary.zero_lt_iff.mp hPos).2
    simp only [List.mem_cons, List.not_mem_nil, or_false] at hMem
    rcases hMem with rfl | rfl | rfl | rfl <;> simp [hThree] at hValue ⊢ <;> norm_num
  obtain ⟨_, d, e, hBuild, hScaled, hCdf, _, _, _, _, _, hSample, hIntegral⟩ :=
    build_timesTwoPow _ (-3) (by simp) (by decide) (by decide +kernel) hRange
  exact ⟨d, e, hBuild, hScaled, hCdf, hSample, hIntegral⟩

end StepDensity

end StepSampling
