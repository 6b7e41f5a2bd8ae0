import StepSampling.Proofs.Density.Queries

/-!
# Selecting a bin inverts the cumulative distribution

The segments of the cumulative distribution, closed below and open above, cut the half-open unit
interval into pieces, one for each bin.  A variate selects the bin whose piece it lies in, and no
other.  Segments without width are empty, so their bins are never selected.

Variates below zero select the first bin and variates from one on the last, and all queries that
select a bin select the same.
-/

namespace StepSampling.StepDensity

/-- The variate lies in the segment of bin `i`, which has its lower end but not its upper one. -/
def InSegment (d : StepDensity) (u : Single) (i : Nat) : Prop :=
  ∃ low high, d.cdf[i]? = some low ∧ d.cdf[i + 1]? = some high ∧ low ≤ u ∧ u < high

/-- The variate selects bin `i`. -/
def Selects (d : StepDensity) (u : Single) (i : Nat) : Prop :=
  ∃ s, d.select u = .ok s ∧ s.bin = i

/-! ## Segments -/

section

variable {n : Nat} {d : StepDensity} (hCdf : IsCumulative n d.cdf.toList)

include hCdf

/-- The segment of an earlier bin has ended where that of a later one starts. -/
theorem InSegment.not_lt {u : Single} {i j : Nat} (hi : d.InSegment u i) (hj : d.InSegment u j) :
    ¬i < j := by
  obtain ⟨_, high, _, hHigh, _, hBelow⟩ := hi
  obtain ⟨low, _, hLow, _, hAbove, _⟩ := hj
  intro hLt
  have hOrder : high.key ≤ low.key := by
    rcases Nat.eq_or_lt_of_le (Nat.succ_le_of_lt hLt) with rfl | hLater
    · rw [Option.some.inj (hHigh.symm.trans hLow)]
    · rw [← Array.getElem?_toList] at hHigh hLow
      exact (hCdf.le_of_getElem? hLater hHigh hLow).2.2
  have hKeyBelow := hBelow.2.2
  have hKeyAbove := hAbove.2.2
  omega

/-- No variate lies in two segments. -/
theorem InSegment.unique {u : Single} {i j : Nat} (hi : d.InSegment u i) (hj : d.InSegment u j) :
    i = j :=
  Nat.le_antisymm (Nat.le_of_not_lt (hj.not_lt hCdf hi)) (Nat.le_of_not_lt (hi.not_lt hCdf hj))

variable (hPos : 1 ≤ n)

include hPos

/-- In the half-open unit interval a bin is selected by the variates of its segment. -/
theorem bin_eq_ok_iff {u : Single} (hLow : Binary.zero ≤ u) (hHigh : u < Binary.one) {i : Nat} :
    d.bin u = .ok i ↔ d.InSegment u i := by
  constructor
  · exact bin_brackets hCdf hPos hLow hHigh
  · intro hi
    obtain ⟨k, hBin, _⟩ := bin_eq_ok hCdf hPos u
    rw [hBin, hi.unique hCdf (bin_brackets hCdf hPos hLow hHigh hBin)]

/-- Below zero no entry is reached. -/
theorem bin_of_neg {u : Single} (hNegative : u < Binary.zero) : d.bin u = .ok 0 := by
  have hSize : d.cdf.size = n + 1 := by simpa using hCdf.length_eq
  rw [bin_eq_interval]
  apply Search.interval_of_false (by omega)
  intro i
  apply decide_eq_false
  intro hLe
  by_cases hEdge : i ≤ n
  · obtain ⟨a, hEntry, _, hNonneg, _⟩ := cdf_entry hCdf hEdge
    rw [cdf_getD hEntry] at hLe
    have hValue := Binary.value_le_of_le hLe
    have hBelow := (Binary.lt_iff_value.mp hNegative).2.2
    rw [Binary.value_zero] at hBelow
    linarith
  · rw [Array.getD_eq_getD_getElem?, Array.getElem?_eq_none (by omega)] at hLe
    exact Bool.noConfusion hLe.1

/-- From one on every entry is reached. -/
theorem bin_of_one_le {u : Single} (hLarge : Binary.one ≤ u) : d.bin u = .ok (n - 1) := by
  have hSize : d.cdf.size = n + 1 := by simpa using hCdf.length_eq
  have hLast : d.cdf.size - 2 = n - 1 := by omega
  rw [← hLast, bin_eq_interval]
  apply Search.interval_of_true (by omega)
  intro i hIndex
  have hEntry : d.cdf[i]? = some d.cdf[i] := Array.getElem?_eq_getElem hIndex
  rw [reaches_of_entry hEntry]
  apply decide_eq_true
  exact Binary.le_trans
    (hCdf.range (Array.mem_toList_iff.mpr (Array.mem_of_getElem? hEntry))).2 hLarge

end

/-! ## Queries -/

theorem bin_of_select {d : StepDensity} {u : Single} {s : Selection}
    (hSelect : d.select u = .ok s) : d.bin u = .ok s.bin := by
  obtain ⟨k, hBin, hRest⟩ := exists_of_bind_eq_ok hSelect
  obtain ⟨p, _, hPair⟩ := exists_of_bind_eq_ok hRest
  cases hPair
  exact hBin

section

variable {weights : List Single} {d : StepDensity} (hWord : weights.length < 2 ^ 64)
  (hBuild : build weights = .ok d)

include hWord hBuild

theorem selects_iff {u : Single} {i : Nat} : d.Selects u i ↔ d.bin u = .ok i := by
  constructor
  · rintro ⟨s, hSelect, rfl⟩
    exact bin_of_select hSelect
  · intro hBin
    obtain ⟨s, _, hSelect, _⟩ := selectRemapped_eq_ok hWord hBuild u
    exact ⟨s, hSelect, Except.ok.inj ((bin_of_select hSelect).symm.trans hBin)⟩

/-- In the half-open unit interval a bin is selected by the variates of its segment. -/
theorem selects_iff_inSegment {u : Single} (hLow : Binary.zero ≤ u) (hHigh : u < Binary.one)
    {i : Nat} : d.Selects u i ↔ d.InSegment u i :=
  (selects_iff hWord hBuild).trans
    (bin_eq_ok_iff (cdf_isCumulative hWord hBuild) (length_pos_of_build hBuild) hLow hHigh)

/-- All queries select the same bin. -/
theorem queries_select_alike (u : Single) :
    ∃ s t, d.select u = .ok s ∧ d.selectRemapped u = .ok (s, t) ∧
      (∀ draw, d.sample u = .ok draw → draw.bin = s.bin) ∧
      (u.isNaN = false → ∃ draw, d.sample u = .ok draw) := by
  obtain ⟨s, t, hSelect, hRemapped, _⟩ := selectRemapped_eq_ok hWord hBuild u
  refine ⟨s, t, hSelect, hRemapped, ?_, ?_⟩
  · intro draw hDraw
    obtain ⟨_, _, hBin, _⟩ := (answers_of_build hWord hBuild).sample_ok u draw hDraw
    exact Except.ok.inj (hBin.symm.trans (bin_of_select hSelect))
  · intro hNumber
    rcases sample_cases hWord hBuild u with ⟨hNaN, _⟩ | ⟨_, _, _, _, _, _, _, _, _, hSample, _⟩
    · rw [hNumber] at hNaN
      cases hNaN
    · exact ⟨_, hSample⟩

end

/-- **Exact inversion.** A variate of the half-open unit interval selects a bin if and only if it
lies in the segment of that bin, from its lower end on and strictly below its upper one.  Hence
every such variate lies in exactly one segment, a bin whose segment has no width is never selected,
and outside the uniform case only bins of positive weight are.  Variates below zero select the first
bin, variates from one on the last, and sampling and selecting with a rest select the bin that
selecting does. -/
theorem selection_inverts_cdf (weights : List Single) (d : StepDensity)
    (hWord : weights.length < 2 ^ 64) (hBuild : build weights = .ok d) :
    (∀ u, Binary.zero ≤ u → u < Binary.one →
      (∀ i < weights.length, d.Selects u i ↔ d.InSegment u i) ∧
      (∃! i, i < weights.length ∧ d.InSegment u i) ∧
      (∀ i low high, d.cdf[i]? = some low → d.cdf[i + 1]? = some high → ¬low < high →
        ¬d.Selects u i) ∧
      (d.integral.isZero = false → ∀ i, d.Selects u i →
        ∃ w, weights[i]? = some w ∧ Binary.zero < w)) ∧
    (∀ u, u < Binary.zero → d.Selects u 0) ∧
    (∀ u, Binary.one ≤ u → d.Selects u (weights.length - 1)) ∧
    ∀ u, ∃ s t, d.select u = .ok s ∧ d.selectRemapped u = .ok (s, t) ∧
      (∀ draw, d.sample u = .ok draw → draw.bin = s.bin) ∧
      (u.isNaN = false → ∃ draw, d.sample u = .ok draw) := by
  have hCdf := cdf_isCumulative hWord hBuild
  have hPos := length_pos_of_build hBuild
  refine ⟨?_, ?_, ?_, queries_select_alike hWord hBuild⟩
  · intro u hLow hHigh
    have hIff := fun i => selects_iff_inSegment hWord hBuild hLow hHigh (i := i)
    refine ⟨fun i _ => hIff i, ?_, ?_, ?_⟩
    · obtain ⟨k, hBin, hBound⟩ := bin_eq_ok hCdf hPos u
      have hk := bin_brackets hCdf hPos hLow hHigh hBin
      exact ⟨k, ⟨hBound, hk⟩, fun j hj => hj.2.unique hCdf hk⟩
    · intro i low high hLowEntry hHighEntry hLevel hSelects
      obtain ⟨low', high', hLowEntry', hHighEntry', hLe, hLt⟩ := (hIff i).mp hSelects
      obtain rfl := Option.some.inj (hLowEntry.symm.trans hLowEntry')
      obtain rfl := Option.some.inj (hHighEntry.symm.trans hHighEntry')
      exact hLevel ⟨hLe.1, hLt.2.1, Int.lt_of_le_of_lt hLe.2.2 hLt.2.2⟩
    · intro hNonzero i hSelects
      exact weight_pos_of_bin hWord hBuild hNonzero hLow hHigh
        ((selects_iff hWord hBuild).mp hSelects)
  · intro u hNegative
    exact (selects_iff hWord hBuild).mpr (bin_of_neg hCdf hPos hNegative)
  · intro u hLarge
    exact (selects_iff hWord hBuild).mpr (bin_of_one_le hCdf hPos hLarge)

/-- The variate at the edge where a bin of weight zero has its segment: it belongs to the next
segment, and the bin is not selected. -/
theorem selection_inverts_cdf_edge :
    ∃ d, build [.one, .zero, .ofNat .single 3] = .ok d ∧
      d.Selects (Binary.one / Binary.ofNat .single 4) 2 ∧
      ¬d.Selects (Binary.one / Binary.ofNat .single 4) 1 ∧ d.Selects Binary.infinity 2 := by
  refine ⟨_, rfl, ?_⟩
  obtain ⟨hInside, _, hAbove, _⟩ := selection_inverts_cdf [.one, .zero, .ofNat .single 3] _
    (by decide) rfl
  obtain ⟨hIff, _, hLevel, _⟩ := hInside (Binary.one / Binary.ofNat .single 4) (by decide +kernel)
    (by decide +kernel)
  refine ⟨?_, hLevel 1 _ _ rfl rfl (by decide +kernel), hAbove Binary.infinity (by decide)⟩
  exact (hIff 2 (by decide)).mpr ⟨_, _, rfl, rfl, by decide +kernel, by decide +kernel⟩

end StepSampling.StepDensity
