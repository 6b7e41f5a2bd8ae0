import StepSampling.Density.Sampling
import StepSampling.Proofs.Bins
import StepSampling.Proofs.Density.Cumulative
import StepSampling.Proofs.Search

/-!
# A sampled point lies in its bin

The variate selects a bin, its place inside the segment is a number between zero and one, and the
coordinate computed from both lies between zero and the greatest number below one.  From there
`confine` reaches the bin, so that the density looked up at the point is the one it was sampled with.
-/

namespace StepSampling

/-- What a computation in two steps has returned went through both. -/
theorem exists_of_bind_eq_ok {ε α β : Type} {first : Except ε α} {second : α → Except ε β} {b : β}
    (hOk : first >>= second = .ok b) : ∃ a, first = .ok a ∧ second a = .ok b := by
  cases first with
  | error e => cases hOk
  | ok a => exact ⟨a, rfl, hOk⟩

theorem fetch_eq_ok_iff {α : Type} {xs : Array α} {i : Nat} {a : α} :
    fetch xs i = .ok a ↔ xs[i]? = some a := by
  rw [Array.getElem?_eq_some_iff, fetch]
  split
  · next hIndex =>
    rw [Except.ok.injEq]
    exact ⟨fun h => ⟨hIndex, h⟩, fun ⟨_, h⟩ => h⟩
  · next hIndex =>
    constructor
    · intro hFault
      cases hFault
    · rintro ⟨hInside, _⟩
      exact absurd hInside hIndex

/-! ## Choices between numbers -/

theorem clamp_unit {x : Single} (hNumber : x.isNaN = false) :
    (clamp x Binary.zero Binary.one).isNaN = false ∧
      0 ≤ (clamp x Binary.zero Binary.one).value ∧ (clamp x Binary.zero Binary.one).value ≤ 1 := by
  unfold clamp
  split
  · rw [Binary.value_zero]
    exact ⟨rfl, le_rfl, zero_le_one⟩
  · next hLow =>
    split
    · rw [Binary.value_one]
      exact ⟨rfl, zero_le_one, le_rfl⟩
    · next hHigh =>
      rw [Binary.lt_iff_value, Binary.value_zero] at hLow
      rw [Binary.lt_iff_value, Binary.value_one] at hHigh
      refine ⟨hNumber, ?_, ?_⟩
      · by_contra hNot
        exact hLow ⟨hNumber, rfl, not_le.mp hNot⟩
      · by_contra hNot
        exact hHigh ⟨rfl, hNumber, not_le.mp hNot⟩

theorem lesser_belowOne {x : Single} (hNumber : x.isNaN = false) (hLow : 0 ≤ x.value) :
    (lesser x Single.belowOne).isNaN = false ∧ 0 ≤ (lesser x Single.belowOne).value ∧
      (lesser x Single.belowOne).value ≤ Single.belowOne.value := by
  unfold lesser
  split
  · next hLess => exact ⟨hNumber, hLow, (Binary.lt_iff_value.mp hLess).2.2.le⟩
  · refine ⟨rfl, ?_, le_rfl⟩
    rw [Single.value_belowOne]
    norm_num

/-- What is kept below one lies in the half-open unit interval; NaN gives way to the bound. -/
theorem lesser_belowOne_range {x : Single} (hLow : 0 ≤ x.value) :
    Binary.zero ≤ lesser x Single.belowOne ∧ lesser x Single.belowOne < Binary.one := by
  have hBound : Single.belowOne < Binary.one := by decide
  unfold lesser
  split
  · next hLess =>
    exact ⟨Binary.zero_le_iff.mpr ⟨hLess.1, hLow⟩,
      hLess.1, hBound.2.1, hLess.2.2.trans hBound.2.2⟩
  · exact ⟨by decide, hBound⟩

namespace StepDensity

/-- The place of a variate between two entries. -/
theorem position_eq {d : StepDensity} {k : Nat} {low high : Single} (hLow : d.cdf[k]? = some low)
    (hHigh : d.cdf[k + 1]? = some high) (u : Single) :
    d.position u k = .ok (if Binary.zero < high - low then
      clamp ((u - low) / (high - low)) Binary.zero Binary.one else Binary.zero) := by
  rw [position, fetch_eq_ok_iff.mpr hLow, fetch_eq_ok_iff.mpr hHigh]
  rfl

/-- The width of a segment of the unit interval is finite. -/
theorem width_isFinite {low high : Single} (hLowFinite : low.isFinite = true)
    (hHighFinite : high.isFinite = true) (hLow : 0 ≤ low.value) (hHigh : high.value ≤ 1)
    (hWidth : Binary.zero < high - low) : (high - low).isFinite = true := by
  have hDifference := Binary.sub_rounds high low hHighFinite hLowFinite
  refine Binary.isFinite_of_value_le hDifference.1 (Binary.zero_lt_iff.mp hWidth).2.le ?_
  have hLe := hDifference.value_le (y := Binary.one) rfl (by rw [Binary.value_one]; linarith)
  rw [Binary.value_one] at hLe
  exact hLe.trans (by norm_num)

/-- Whether the variate reaches an entry of the cumulative distribution. -/
def reaches (d : StepDensity) (u : Single) (i : Nat) : Bool := decide (d.cdf.getD i .nan ≤ u)

theorem reaches_of_entry {d : StepDensity} {i : Nat} {a : Single} (hEntry : d.cdf[i]? = some a)
    (u : Single) : d.reaches u i = decide (a ≤ u) := by
  rw [reaches, Array.getD_eq_getD_getElem?, hEntry, Option.getD_some]

/-- The search for the bin reads entries that exist, and so it never breaks off. -/
theorem bin_eq_interval (d : StepDensity) (u : Single) :
    d.bin u = Search.interval d.cdf.size (d.reaches u) := by
  apply Search.intervalM_eq
  intro i hIndex
  have hEntry : d.cdf[i]? = some d.cdf[i] := Array.getElem?_eq_getElem hIndex
  rw [fetch_eq_ok_iff.mpr hEntry, reaches_of_entry hEntry]
  rfl

section

variable {n : Nat} {d : StepDensity} (hCdf : IsCumulative n d.cdf.toList)

include hCdf

theorem bin_eq_ok (hPos : 1 ≤ n) (u : Single) : ∃ k, d.bin u = .ok k ∧ k < n := by
  have hSize : d.cdf.size = n + 1 := by simpa using hCdf.length_eq
  obtain ⟨k, hFound, hBound⟩ := Search.interval_eq_ok d.cdf.size (d.reaches u) (by omega)
  exact ⟨k, (bin_eq_interval d u).trans hFound, by omega⟩

theorem cdf_entry {k : Nat} (hEdge : k ≤ n) :
    ∃ a, d.cdf[k]? = some a ∧ a.isFinite = true ∧ 0 ≤ a.value ∧ a.value ≤ 1 := by
  have hSize : d.cdf.size = n + 1 := by simpa using hCdf.length_eq
  have hEntry : d.cdf[k]? = some d.cdf[k] := Array.getElem?_eq_getElem (by omega)
  obtain ⟨hLow, hHigh⟩ := hCdf.range (Array.mem_toList_iff.mpr (Array.mem_of_getElem? hEntry))
  have hOne := Binary.value_le_of_le hHigh
  rw [Binary.value_one] at hOne
  exact ⟨_, hEntry, Binary.isFinite_of_le hLow hHigh Binary.isFinite_one,
    Binary.value_nonneg_of_le hLow, hOne⟩

/-- The place of a variate other than NaN is a number between zero and one. -/
theorem position_eq_ok {k : Nat} (hBin : k < n) {u : Single} (hNumber : u.isNaN = false) :
    ∃ t, d.position u k = .ok t ∧ t.isNaN = false ∧ 0 ≤ t.value ∧ t.value ≤ 1 := by
  obtain ⟨low, hLow, hLowFinite, hLowNonneg, _⟩ := cdf_entry hCdf (show k ≤ n by omega)
  obtain ⟨high, hHigh, hHighFinite, _, hHighOne⟩ := cdf_entry hCdf (show k + 1 ≤ n by omega)
  refine ⟨_, position_eq hLow hHigh u, ?_⟩
  split
  · next hWidth =>
    have hWidthPos := (Binary.zero_lt_iff.mp hWidth).2
    exact clamp_unit (Binary.isNaN_div _ _ (Binary.isNaN_sub u low hNumber hLowFinite)
      (width_isFinite hLowFinite hHighFinite hLowNonneg hHighOne hWidth) hWidthPos.ne')
  · rw [Binary.value_zero]
    exact ⟨rfl, le_rfl, zero_le_one⟩

end

/-- The number of a bin and a place in it are added without overflow. -/
theorem start_add {k : Nat} (hWord : k < 2 ^ 64) {t : Single} (hNumber : t.isNaN = false)
    (hLow : 0 ≤ t.value) (hHigh : t.value ≤ 1) :
    (Binary.ofNat .single k + t).Rounds ((Binary.ofNat .single k).value + t.value) ∧
      (Binary.ofNat .single k + t).isFinite = true ∧
      0 ≤ (Binary.ofNat .single k + t).value := by
  have hStartLow := (Binary.ofNat_rounds (F := .single) k).value_nonneg (Nat.cast_nonneg k)
  have hStartHigh := Binary.value_ofNat_le (F := .single) k (by omega)
  have hStartFinite : (Binary.ofNat .single k).isFinite = true :=
    Binary.isFinite_of_value_le rfl hStartLow (hStartHigh.trans (by norm_num))
  have htFinite : t.isFinite = true :=
    Binary.isFinite_of_value_le hNumber hLow (hHigh.trans (by norm_num))
  have hSum := Binary.add_rounds _ t hStartFinite htFinite
  refine ⟨hSum, hSum.isFinite (by linarith) ?_, hSum.value_nonneg (by linarith)⟩
  have hPow : (2 : ℚ) ^ 64 + 1 ≤ 2 ^ 100 := by norm_num
  linarith

/-- The coordinate of a place in a bin, before it is confined. -/
theorem coordinate_range {k n : Nat} (hBin : k < n) (hWord : n < 2 ^ 64) {t : Single}
    (hNumber : t.isNaN = false) (hLow : 0 ≤ t.value) (hHigh : t.value ≤ 1) :
    (coordinate k n t).isNaN = false ∧ 0 ≤ (coordinate k n t).value ∧
      (coordinate k n t).value ≤ Single.belowOne.value := by
  obtain ⟨hFinite, hOne⟩ := Binary.count_isFinite (F := .single) n (by omega) hWord
  obtain ⟨_, hSumFinite, hSumLow⟩ := start_add (k := k) (by omega) hNumber hLow hHigh
  have hQuotient := Binary.div_rounds _ _ hSumFinite hFinite (by linarith)
  exact lesser_belowOne hQuotient.1 (hQuotient.value_nonneg (div_nonneg hSumLow (by linarith)))

theorem density_eq_ok {d : StepDensity} {k : Nat} (hBin : k < d.count) :
    ∃ p, d.density k = .ok p := by
  unfold density
  split
  · rw [fetch_eq_ok_iff.mpr (Array.getElem?_eq_getElem hBin)]
    exact ⟨_, rfl⟩
  · exact ⟨_, rfl⟩

theorem density_of_integral_pos {d : StepDensity} (hPos : Binary.zero < d.integral) {k : Nat}
    {w : Single} (hWeight : d.weights[k]? = some w) : d.density k = .ok (w / d.integral) := by
  rw [density, if_pos hPos, fetch_eq_ok_iff.mpr hWeight]
  rfl

theorem density_of_isUniform {d : StepDensity} (hUniform : d.isUniform = true) (k : Nat) :
    d.density k = .ok Binary.one := by
  rw [density, if_neg]
  rw [Binary.zero_lt_iff, ((Binary.isZero_iff _).mp hUniform).2]
  exact fun hPos => lt_irrefl _ hPos.2

theorem count_eq {weights : List Single} {d : StepDensity} (hBuild : build weights = .ok d) :
    d.count = weights.length := by
  obtain ⟨_, _, hKept, _, _, _⟩ := build_eq_ok hBuild
  rw [count, hKept, List.size_toArray]

/-- Sampling with a variate other than NaN goes through: its place in the segment is turned into a
coordinate, and the two walks lead from there into the selected bin. -/
theorem sample_eq_walk {weights : List Single} {d : StepDensity} (hBuild : build weights = .ok d)
    (hWord : weights.length < 2 ^ 64) {u : Single} (hNumber : u.isNaN = false) :
    ∃ k t p, d.bin u = .ok k ∧ k < weights.length ∧ d.position u k = .ok t ∧ t.isNaN = false ∧
      0 ≤ t.value ∧ t.value ≤ 1 ∧ d.density k = .ok p ∧
      d.sample u = .ok ⟨Bins.walk k weights.length (coordinate k weights.length t), p, k⟩ := by
  have hPos : 1 ≤ weights.length := List.length_pos_iff.mpr (build_eq_ok hBuild).1
  have hCdf := cdf_isCumulative hWord hBuild
  have hCount := count_eq hBuild
  obtain ⟨k, hSelected, hBin⟩ := bin_eq_ok hCdf hPos u
  obtain ⟨t, hPlace, htNumber, htLow, htHigh⟩ := position_eq_ok hCdf hBin hNumber
  obtain ⟨hRaw, _, _⟩ := coordinate_range hBin hWord htNumber htLow htHigh
  obtain ⟨p, hDensity⟩ := density_eq_ok (show k < d.count by omega)
  refine ⟨k, t, p, hSelected, hBin, hPlace, htNumber, htLow, htHigh, hDensity, ?_⟩
  rw [sample, hSelected]
  show (d.position u k >>= _) = _
  rw [hPlace]
  show (if t.isNaN then _ else _) = _
  rw [htNumber, if_neg Bool.false_ne_true, hCount, Bins.confine_eq_walk hBin hRaw, hDensity]
  rfl

/-- Sampling goes through and ends in the selected bin. -/
theorem sample_eq_ok {weights : List Single} {d : StepDensity} (hBuild : build weights = .ok d)
    (hSmall : weights.length ≤ 2 ^ 23) {u : Single} (hNumber : u.isNaN = false) :
    ∃ k x p, d.bin u = .ok k ∧ k < weights.length ∧ d.density k = .ok p ∧
      d.sample u = .ok ⟨x, p, k⟩ ∧ x.isNaN = false ∧ 0 ≤ x.value ∧ x.value < 1 ∧
      Bins.binOf x weights.length = k := by
  have hPos : 1 ≤ weights.length := List.length_pos_iff.mpr (build_eq_ok hBuild).1
  have hWord : weights.length < 2 ^ 64 := by omega
  obtain ⟨k, t, p, hSelected, hBin, _, htNumber, htLow, htHigh, hDensity, hSample⟩ :=
    sample_eq_walk hBuild hWord hNumber
  obtain ⟨hRaw, hRawLow, hRawHigh⟩ := coordinate_range hBin hWord htNumber htLow htHigh
  obtain ⟨x, hConfined, hxNumber, hxLow, hxHigh, hxBin⟩ :=
    Bins.confine_eq_ok hPos hSmall hBin hRaw hRawLow hRawHigh
  rw [Bins.confine_eq_walk hBin hRaw, Except.ok.injEq] at hConfined
  rw [hConfined] at hSample
  exact ⟨k, x, p, hSelected, hBin, hDensity, hSample, hxNumber, hxLow, hxHigh, hxBin⟩

/-- **Sample and density agree.**  For up to `2 ^ 23` weights every variate other than NaN gives a
point of the half-open unit interval that falls into the bin it was drawn from, and the density at the
point is, bit for bit, the one that was returned with it. -/
theorem sample_agrees (weights : List Single) (d : StepDensity)
    (hSmall : weights.length ≤ 2 ^ 23) (hBuild : build weights = .ok d) (u : Single)
    (hNumber : u.isNaN = false) :
    ∃ draw, d.sample u = .ok draw ∧ draw.bin < weights.length ∧
      Binary.zero ≤ draw.x ∧ draw.x < Binary.one ∧
      Bins.bin draw.x weights.length = .ok draw.bin ∧
      d.densityAt draw.x = .ok draw.density := by
  obtain ⟨k, x, p, _, hBin, hDensity, hSample, hx, hLow, hHigh, hFalls⟩ :=
    sample_eq_ok hBuild hSmall hNumber
  have hFound : Bins.bin x weights.length = .ok k := by
    rw [Bins.bin, if_neg (by omega), hFalls]
  refine ⟨⟨x, p, k⟩, hSample, hBin, Binary.zero_le_iff.mpr ⟨hx, hLow⟩, ?_, hFound, ?_⟩
  · rw [Binary.lt_iff_value, Binary.value_one]
    exact ⟨hx, rfl, hHigh⟩
  · rw [densityAt, count_eq hBuild, hFound]
    exact hDensity

/-- An infinite variate. -/
theorem sample_agrees_infinity :
    ∃ d draw, build [.ofNat .single 1, .zero, .ofNat .single 6] = .ok d ∧
      d.sample Binary.infinity = .ok draw ∧ draw.bin < 3 ∧
      d.densityAt draw.x = .ok draw.density := by
  obtain ⟨draw, hSample, hBin, _, _, _, hDensity⟩ := sample_agrees
    [.ofNat .single 1, .zero, .ofNat .single 6] _ (by decide) rfl Binary.infinity rfl
  exact ⟨_, draw, rfl, hSample, hBin, hDensity⟩

end StepDensity

end StepSampling
