import StepSampling.Proofs.Density.Agreement

/-!
# The bin that a variate selects

A variate of the half-open unit interval lies between the two entries of the cumulative distribution
that belong to the bin it selects, and strictly below the second.  Over a weight of zero the two
entries are the same outside the uniform case, so only bins of positive weight are selected there.
NaN compares with no entry and selects the first bin.
-/

namespace StepSampling.StepDensity

/-- An entry as the search reads it. -/
theorem cdf_getD {d : StepDensity} {i : Nat} {a : Single} (hEntry : d.cdf[i]? = some a) :
    d.cdf.getD i .nan = a := by
  rw [Array.getD_eq_getD_getElem?, hEntry, Option.getD_some]

section

variable {n : Nat} {d : StepDensity} (hCdf : IsCumulative n d.cdf.toList) (hPos : 1 ≤ n)

include hCdf hPos

theorem bin_lt {u : Single} {k : Nat} (hBin : d.bin u = .ok k) : k < n := by
  obtain ⟨k', hFound, hBound⟩ := bin_eq_ok hCdf hPos u
  rwa [← Except.ok.inj (hFound.symm.trans hBin)]

theorem bin_of_nan {u : Single} (hNaN : u.isNaN = true) : d.bin u = .ok 0 := by
  have hSize : d.cdf.size = n + 1 := by simpa using hCdf.length_eq
  rw [bin_eq_interval]
  apply Search.interval_of_false (by omega)
  intro i
  apply decide_eq_false
  rintro ⟨_, hNumber, _⟩
  rw [hNaN] at hNumber
  cases hNumber

/-- The variate lies in the segment of the bin it selects. -/
theorem bin_brackets {u : Single} (hLow : Binary.zero ≤ u) (hHigh : u < Binary.one) {k : Nat}
    (hBin : d.bin u = .ok k) :
    ∃ low high, d.cdf[k]? = some low ∧ d.cdf[k + 1]? = some high ∧ low ≤ u ∧ u < high := by
  have hBound := bin_lt hCdf hPos hBin
  have hSize : d.cdf.size = n + 1 := by simpa using hCdf.length_eq
  have hFirst : d.cdf[0]? = some Binary.zero := Array.getElem?_toList.symm.trans hCdf.first
  have hLast : d.cdf[n]? = some Binary.one := Array.getElem?_toList.symm.trans hCdf.last
  obtain ⟨low, hLowEntry, _, _, _⟩ := cdf_entry hCdf (show k ≤ n by omega)
  obtain ⟨high, hHighEntry, hHighFinite, _, _⟩ := cdf_entry hCdf (show k + 1 ≤ n by omega)
  -- the first entry, zero, is not above the variate, and the last one, one, is
  have hStart : d.reaches u 0 = true := by
    rw [reaches_of_entry hFirst]
    exact decide_eq_true hLow
  have hEnd : d.reaches u (d.cdf.size - 1) = false := by
    rw [hSize, Nat.add_sub_cancel, reaches_of_entry hLast]
    apply decide_eq_false
    rintro ⟨_, _, hKey⟩
    have hLess := hHigh.2.2
    omega
  rw [bin_eq_interval] at hBin
  obtain ⟨hHolds, hFails⟩ := Search.interval_brackets hStart hEnd hBin
  rw [reaches_of_entry hLowEntry, decide_eq_true_eq] at hHolds
  rw [reaches_of_entry hHighEntry, decide_eq_false_iff_not] at hFails
  exact ⟨low, high, hLowEntry, hHighEntry, hHolds,
    Binary.lt_of_not_le hLow.2.1 (Binary.isNaN_of_isFinite hHighFinite) hFails⟩

end

section

variable {weights : List Single} {d : StepDensity} (hWord : weights.length < 2 ^ 64)
  (hBuild : build weights = .ok d)

include hWord hBuild

/-- Every variate selects a bin. -/
theorem exists_bin (u : Single) : ∃ k, d.bin u = .ok k ∧ k < weights.length :=
  bin_eq_ok (cdf_isCumulative hWord hBuild) (length_pos_of_build hBuild) u

/-- Outside the uniform case a variate of the half-open unit interval selects a bin of positive
weight. -/
theorem weight_pos_of_bin (hNonzero : d.integral.isZero = false) {u : Single} (hLow : Binary.zero ≤ u)
    (hHigh : u < Binary.one) {k : Nat} (hBin : d.bin u = .ok k) :
    ∃ w, weights[k]? = some w ∧ Binary.zero < w := by
  have hCdf := cdf_isCumulative hWord hBuild
  obtain ⟨_, hWeights, _, _, _, _⟩ := build_eq_ok hBuild
  have hPos := length_pos_of_build hBuild
  have hBound := bin_lt hCdf hPos hBin
  have hWeight : weights[k]? = some weights[k] := List.getElem?_eq_getElem hBound
  refine ⟨_, hWeight, ?_⟩
  obtain ⟨hNumber, hNonneg⟩ :=
    Binary.zero_le_iff.mp ((Single.isWeight_iff _).mp (hWeights _ (List.getElem_mem hBound))).2
  refine Binary.zero_lt_iff.mpr ⟨hNumber, lt_of_le_of_ne hNonneg ?_⟩
  intro hZero
  -- over a weight of zero the segment would be empty
  have hLevel := cdf_level hWord hBuild hNonzero hWeight
    ((Binary.isZero_iff _).mpr ⟨hNumber, hZero.symm⟩)
  obtain ⟨low, high, hLowEntry, hHighEntry, hLe, hLt⟩ := bin_brackets hCdf hPos hLow hHigh hBin
  rw [hLowEntry, hHighEntry, Option.some.injEq] at hLevel
  subst hLevel
  have hKeyLe := hLe.2.2
  have hKeyLt := hLt.2.2
  omega

end

end StepSampling.StepDensity
