import StepSampling.Proofs.Binary.Monotone
import StepSampling.Proofs.Density.Queries

/-!
# Sampling keeps the order of the variates

A larger variate reaches at least as many entries of the cumulative distribution, so it selects no
earlier bin.  In one segment every step from the variate to the coordinate keeps the order: the
rounded difference and the two rounded quotients, the clamp and the bound below one.  The walks into
the bins keep it too, and this is where two different bins meet.  It holds for any number of bins,
also where some bin contains no number at all and the walk into it ends in a later one.
-/

namespace StepSampling.StepDensity

section

variable {n : Nat} {d : StepDensity} (hCdf : IsCumulative n d.cdf.toList)

include hCdf

/-- The entries do not decrease, as the search reads them. -/
theorem getD_cdf_mono {i j : Nat} (hOrder : i ≤ j) (hEdge : j ≤ n) :
    d.cdf.getD i .nan ≤ d.cdf.getD j .nan := by
  obtain ⟨a, ha, haFinite, _⟩ := cdf_entry hCdf (show i ≤ n by omega)
  obtain ⟨b, hb, _⟩ := cdf_entry hCdf hEdge
  rw [cdf_getD ha, cdf_getD hb]
  rcases Nat.eq_or_lt_of_le hOrder with rfl | hLater
  · rw [Option.some.inj (ha.symm.trans hb)]
    rw [Option.some.inj (ha.symm.trans hb)] at haFinite
    exact Binary.le_refl (Binary.isNaN_of_isFinite haFinite)
  · rw [← Array.getElem?_toList] at ha hb
    exact hCdf.le_of_getElem? hLater ha hb

/-- A larger variate selects no earlier bin. -/
theorem bin_mono {u v : Single} (hLe : u ≤ v) {k l : Nat} (hu : d.bin u = .ok k)
    (hv : d.bin v = .ok l) : k ≤ l := by
  have hSize : d.cdf.size = n + 1 := by simpa using hCdf.length_eq
  rw [bin_eq_interval] at hu hv
  apply Search.interval_mono ?_ ?_ hu hv
  · intro i _ hReached
    exact decide_eq_true (Binary.le_trans (of_decide_eq_true hReached) hLe)
  · intro i j hOrder hEdge hReached
    exact decide_eq_true (Binary.le_trans (getD_cdf_mono hCdf hOrder (by omega))
      (of_decide_eq_true hReached))

/-- In one segment a larger variate has no lower place. -/
theorem position_mono {k : Nat} (hBin : k < n) {u v s t : Single} (hLe : u ≤ v)
    (hs : d.position u k = .ok s) (ht : d.position v k = .ok t) : s ≤ t := by
  obtain ⟨low, hLow, hLowFinite, hLowNonneg, _⟩ := cdf_entry hCdf (show k ≤ n by omega)
  obtain ⟨high, hHigh, hHighFinite, _, hHighOne⟩ := cdf_entry hCdf (show k + 1 ≤ n by omega)
  rw [position_eq hLow hHigh, Except.ok.injEq] at hs ht
  rw [← hs, ← ht]
  split
  · next hWidth =>
    have hFinite := width_isFinite hLowFinite hHighFinite hLowNonneg hHighOne hWidth
    exact clamp_mono (by decide) (Binary.div_le_div (Binary.sub_mono hLe hLowFinite) hFinite
      (Binary.zero_lt_iff.mp hWidth).2)
  · exact Binary.le_refl rfl

end

/-- In one bin a higher place has no lower coordinate. -/
theorem coordinate_mono {k n : Nat} (hBin : k < n) (hWord : n < 2 ^ 64) {s t : Single} (hLe : s ≤ t)
    (hLow : 0 ≤ s.value) (hHigh : t.value ≤ 1) : coordinate k n s ≤ coordinate k n t := by
  obtain ⟨hFinite, hOne⟩ := Binary.count_isFinite (F := .single) n (by omega) hWord
  have hOrder := Binary.value_le_of_le hLe
  obtain ⟨hFirst, hFirstFinite, _⟩ :=
    start_add (k := k) (by omega) hLe.1 hLow (by linarith)
  obtain ⟨hSecond, hSecondFinite, _⟩ :=
    start_add (k := k) (by omega) hLe.2.1 (by linarith) hHigh
  have hSums : Binary.ofNat .single k + s ≤ Binary.ofNat .single k + t :=
    Binary.le_iff_value.mpr ⟨hFirst.1, hSecond.1, hFirst.value_mono hSecond (by linarith)⟩
  exact lesser_mono (Binary.div_mono hSums hFirstFinite hSecondFinite hFinite (by linarith)) rfl

/-- **Monotone inversion.** For any number of bins and any two variates in order, NaN apart, the
sampled bins and the sampled points are in the same order, and when the bins are the same, so are
the rests of the variates. -/
theorem sample_monotone (weights : List Single) (d : StepDensity) (hWord : weights.length < 2 ^ 64)
    (hBuild : build weights = .ok d) (u v : Single) (hLe : u ≤ v) :
    ∃ a b r s, d.sample u = .ok a ∧ d.sample v = .ok b ∧ d.selectRemapped u = .ok r ∧
      d.selectRemapped v = .ok s ∧ a.bin ≤ b.bin ∧ a.x ≤ b.x ∧ (a.bin = b.bin → r.2 ≤ s.2) := by
  have hCdf := cdf_isCumulative hWord hBuild
  obtain ⟨k, t, p, hBin, hBound, hPlace, htNumber, htLow, htHigh, _, hSample⟩ :=
    sample_eq_walk hBuild hWord hLe.1
  obtain ⟨k', t', p', hBin', hBound', hPlace', htNumber', htLow', htHigh', _, hSample'⟩ :=
    sample_eq_walk hBuild hWord hLe.2.1
  obtain ⟨_, _, _, hRest⟩ := selectRemapped_of_position hWord hBuild hBin hPlace
  obtain ⟨_, _, _, hRest'⟩ := selectRemapped_of_position hWord hBuild hBin' hPlace'
  have hPlaces : k = k' → t ≤ t' := by
    rintro rfl
    exact position_mono hCdf hBound hLe hPlace hPlace'
  refine ⟨_, _, _, _, hSample, hSample', hRest, hRest', bin_mono hCdf hLe hBin hBin', ?_, ?_⟩
  · obtain ⟨hx, _, _⟩ := coordinate_range hBound hWord htNumber htLow htHigh
    obtain ⟨hy, _, _⟩ := coordinate_range hBound' hWord htNumber' htLow' htHigh'
    apply Bins.walk_mono (length_pos_of_build hBuild) hWord (bin_mono hCdf hLe hBin hBin') hBound'
      hx hy
    rintro rfl
    exact coordinate_mono hBound hWord (hPlaces rfl) htLow htHigh'
  · intro hSame
    exact lesser_mono (hPlaces hSame) rfl

/-- Negative infinity and a tenth, which fall into the first bin and into the second. -/
theorem sample_monotone_infinity :
    ∃ d a b, build [.zero, .one, .ofNat .single 3] = .ok d ∧
      d.sample (-Binary.infinity) = .ok a ∧
      d.sample (Binary.one / Binary.ofNat .single 10) = .ok b ∧
      a.bin ≤ b.bin ∧ a.x ≤ b.x := by
  obtain ⟨a, b, _, _, ha, hb, _, _, hBins, hPoints, _⟩ := sample_monotone
    [.zero, .one, .ofNat .single 3] _ (by decide) rfl (-Binary.infinity)
    (Binary.one / Binary.ofNat .single 10) (by decide +kernel)
  exact ⟨_, a, b, rfl, ha, hb, hBins, hPoints⟩

end StepSampling.StepDensity
