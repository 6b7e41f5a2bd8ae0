import StepSampling.Proofs.Density.Bounds
import StepSampling.Proofs.Density.Selection
import StepSampling.Proofs.Search.Runs

/-!
# What the queries of a step density answer

The queries take any number, NaN and the infinities included.  Only two of them can fail, and the exact
condition is known: a probability is refused behind the last bin, and a sample is refused for NaN when
the first segment of the cumulative distribution has a width.  A segment without width has the place
zero for every variate, NaN not excepted.

Everything that is read is there: the search for a bin looks at entries of the cumulative distribution
only, and the bin that it finds has a weight and two entries.  Everything that is returned is in range.
The walks into a bin end for any number of bins, and a density is finite although the integral may have
lost weights to underflow.
-/

namespace StepSampling

/-- What a density or a probability can be: a finite number that is not negative. -/
def Single.IsDensity (p : Single) : Prop := p.isFinite = true ∧ Binary.zero ≤ p

/-- A quotient of a density by a positive number, if it is not too large. -/
theorem Single.IsDensity.div {p y : Single} (hp : p.IsDensity) (hy : y.isFinite = true)
    (hPos : 0 < y.value) (hSmall : p.value / y.value ≤ 2 ^ 100) : (p / y).IsDensity := by
  have hQuotient := Binary.div_rounds p y hp.1 hy hPos.ne'
  have hNonneg : 0 ≤ p.value / y.value := div_nonneg (Binary.value_nonneg_of_le hp.2) hPos.le
  exact ⟨hQuotient.isFinite hNonneg hSmall,
    Binary.zero_le_iff.mpr ⟨hQuotient.1, hQuotient.value_nonneg hNonneg⟩⟩

theorem Single.isDensity_one : Single.IsDensity Binary.one :=
  ⟨Binary.isFinite_one, Binary.zero_le_iff.mpr ⟨rfl, by rw [Binary.value_one]; norm_num⟩⟩

theorem Single.isDensity_of_isWeight {w : Single} (hWeight : w.isWeight = true) : w.IsDensity :=
  w.isWeight_iff.mp hWeight

namespace StepDensity

/-! ## Places -/

section

variable {n : Nat} {d : StepDensity} (hCdf : IsCumulative n d.cdf.toList) (hPos : 1 ≤ n)

include hCdf hPos

/-- The place of NaN in the first segment is NaN if the segment has a width, else zero. -/
theorem position_nan : d.position .nan 0 =
    .ok (if Binary.zero < d.cdf.getD 1 .nan then .nan else Binary.zero) := by
  have hFirst : d.cdf[0]? = some Binary.zero := Array.getElem?_toList.symm.trans hCdf.first
  obtain ⟨a, hEntry, hFinite, _, _⟩ := cdf_entry hCdf hPos
  have hWidth : Binary.zero < a - Binary.zero ↔ Binary.zero < a := by
    have hDifference := Binary.sub_rounds a Binary.zero hFinite Binary.isFinite_zero
    rw [Binary.value_zero, sub_zero] at hDifference
    have hNumber := Binary.isNaN_of_isFinite hFinite
    rw [Binary.zero_lt_iff, Binary.zero_lt_iff, hDifference.value_eq hNumber, hDifference.1, hNumber]
  rw [position, fetch_eq_ok_iff.mpr hFirst, fetch_eq_ok_iff.mpr hEntry, cdf_getD hEntry]
  show Except.ok (if Binary.zero < a - Binary.zero then _ else _) = _
  simp only [hWidth]
  rfl

/-- The place of a variate is a number between zero and one, except for NaN in a segment with a
width, where it is NaN. -/
theorem position_of_bin {u : Single} {k : Nat} (hBin : d.bin u = .ok k) :
    ∃ t, d.position u k = .ok t ∧
      (t.isNaN = true ↔ u.isNaN = true ∧ Binary.zero < d.cdf.getD 1 .nan) ∧
      (t.isNaN = false → 0 ≤ t.value ∧ t.value ≤ 1) := by
  cases u with
  | nan =>
      obtain rfl : 0 = k := Except.ok.inj ((bin_of_nan hCdf hPos rfl).symm.trans hBin)
      refine ⟨_, position_nan hCdf hPos, ?_⟩
      split
      · next hWidth =>
        refine ⟨⟨fun _ => ⟨rfl, hWidth⟩, fun _ => rfl⟩, ?_⟩
        intro hNumber
        cases hNumber
      · next hLevel =>
        refine ⟨⟨?_, fun hWidth => absurd hWidth.2 hLevel⟩, fun _ => ?_⟩
        · intro hNaN
          cases hNaN
        · rw [Binary.value_zero]
          exact ⟨le_rfl, zero_le_one⟩
  | signed s m =>
      obtain ⟨t, hPlace, hNumber, hLow, hHigh⟩ :=
        position_eq_ok hCdf (bin_lt hCdf hPos hBin) (u := .signed s m) rfl
      refine ⟨t, hPlace, ?_, fun _ => ⟨hLow, hHigh⟩⟩
      rw [hNumber]
      constructor
      · intro hNaN
        cases hNaN
      · rintro ⟨hNaN, _⟩
        cases hNaN

end

/-! ## Built densities -/

section

variable {weights : List Single} {d : StepDensity} (hWord : weights.length < 2 ^ 64)
  (hBuild : build weights = .ok d)

include hWord hBuild

/-- Densities are finite: the integral cannot have lost more than the number of weights. -/
theorem density_range {k : Nat} {p : Single} (hDensity : d.density k = .ok p) :
    p.IsDensity ∧ p.value ≤ 12 * weights.length := by
  obtain ⟨hNonempty, hWeights, _, _, hFinite, _⟩ := build_eq_ok hBuild
  have hLength : (1 : ℚ) ≤ weights.length := Nat.one_le_cast.mpr (List.length_pos_iff.mpr hNonempty)
  have hLong : (weights.length : ℚ) < 2 ^ 64 := by exact_mod_cast hWord
  rw [density] at hDensity
  split at hDensity
  · next hIntegral =>
    have hPos := (Binary.zero_lt_iff.mp hIntegral).2
    cases hWeight : fetch d.weights k with
    | error f =>
        rw [hWeight] at hDensity
        cases hDensity
    | ok w =>
        rw [hWeight] at hDensity
        cases hDensity
        have hMem := mem_of_getElem?_weights hBuild (fetch_eq_ok_iff.mp hWeight)
        have hw := Single.isDensity_of_isWeight (hWeights w hMem)
        have hRatio : w.value / d.integral.value ≤ 6 * weights.length := by
          rw [div_le_iff₀ hPos]
          calc w.value ≤ 6 * d.integral.value * weights.length :=
                weight_le_mul_length hWord hBuild le_rfl hPos hMem
            _ = 6 * weights.length * d.integral.value := by ring
        have hQuotient := hw.div hFinite hPos (hRatio.trans (by linarith))
        refine ⟨hQuotient, ?_⟩
        have hBound := (Binary.div_rounds w d.integral hw.1 hFinite hPos.ne').value_le_two_mul
          hQuotient.1 (div_nonneg (Binary.value_nonneg_of_le hw.2) hPos.le) hRatio (by linarith)
        linarith
  · cases hDensity
    rw [Binary.value_one]
    exact ⟨Single.isDensity_one, by linarith⟩

omit hWord in
/-- The probability of a bin is its density over the number of bins. -/
theorem probability_of_density {k : Nat} (hBin : k < d.count) {p : Single}
    (hDensity : d.density k = .ok p) :
    d.probability k = .ok (p / Binary.ofNat .single weights.length) := by
  rw [probability, if_pos hBin, hDensity, count_eq hBuild]
  rfl

/-- Probabilities are as harmless as densities. -/
theorem probability_of_lt {k : Nat} (hBin : k < d.count) :
    ∃ p, d.probability k = .ok p ∧ p.IsDensity := by
  have hLong : (weights.length : ℚ) < 2 ^ 64 := by exact_mod_cast hWord
  obtain ⟨hCount, hOne⟩ := count_range hWord hBuild
  obtain ⟨p, hDensity⟩ := density_eq_ok hBin
  obtain ⟨hp, hBound⟩ := density_range hWord hBuild hDensity
  refine ⟨_, probability_of_density hBuild hBin hDensity, ?_⟩
  apply hp.div hCount (by linarith)
  calc p.value / (Binary.ofNat .single weights.length).value
      ≤ p.value := div_le_self (Binary.value_nonneg_of_le hp.2) hOne
    _ ≤ 2 ^ 100 := by linarith

/-- Sampling, once the place of the variate is known: NaN is refused, and any other place leads into
the bin. -/
theorem sample_of_position {u t : Single} {k : Nat} (hBin : d.bin u = .ok k)
    (hPlace : d.position u k = .ok t) (hRange : t.isNaN = false → 0 ≤ t.value ∧ t.value ≤ 1) :
    (t.isNaN = true → d.sample u = .error .positionNaN) ∧
      (t.isNaN = false → ∃ x p, d.sample u = .ok ⟨x, p, k⟩ ∧ d.density k = .ok p ∧
        Bins.WalksInto k d.count (coordinate k d.count t) x) := by
  have hPos := length_pos_of_build hBuild
  have hCount := count_eq hBuild
  have hBound := bin_lt (cdf_isCumulative hWord hBuild) hPos hBin
  have hSample : d.sample u = (if t.isNaN then .error .positionNaN
      else Bins.confine (coordinate k d.count t) k d.count >>= fun x =>
        d.density k >>= fun p => .ok ⟨x, p, k⟩) := by
    rw [sample, hBin]
    show (d.position u k >>= _) = _
    rw [hPlace]
    rfl
  rw [hSample]
  constructor
  · intro hNaN
    rw [if_pos hNaN]
  · intro hNumber
    obtain ⟨hLow, hHigh⟩ := hRange hNumber
    obtain ⟨hRaw, _, _⟩ := coordinate_range hBound hWord hNumber hLow hHigh
    rw [← hCount] at hRaw hBound hPos
    obtain ⟨x, hConfined, hWalk⟩ :=
      Bins.confine_terminates hPos (by omega) hBound hRaw
    obtain ⟨p, hDensity⟩ := density_eq_ok hBound
    refine ⟨x, p, ?_, hDensity, hWalk⟩
    rw [hNumber, if_neg Bool.false_ne_true, hConfined, hDensity]
    rfl

end

/-- What the queries of a step density answer, whatever they are asked. -/
structure Answers (d : StepDensity) : Prop where
  /-- The search for a bin comes to its end, with an index below the number of bins.  On words it has one
  run, and the entries that it reads exist. -/
  bin_ok : ∀ u, ∃ k, d.bin u = .ok k ∧ k < d.count ∧ (d.cdf.size < UInt64.size →
    ∃ probes, (∀ ps j, Search.FindsInterval (d.reaches u) d.cdf.size ps j ↔ ps = probes ∧ j = k) ∧
      ∀ i ∈ probes, ∃ a, d.cdf[i]? = some a)
  /-- A sample is refused for NaN only, and only if the first segment has a width. -/
  sample_error_iff : ∀ u f, d.sample u = .error f ↔
    f = .positionNaN ∧ u.isNaN = true ∧ Binary.zero < d.cdf.getD 1 .nan
  /-- A sample has a bin, a density, and a coordinate at which both walks into the bin have ended. -/
  sample_ok : ∀ u draw, d.sample u = .ok draw →
    draw.bin < d.count ∧ draw.density.IsDensity ∧ d.bin u = .ok draw.bin ∧
      ∃ t, d.position u draw.bin = .ok t ∧
        Bins.WalksInto draw.bin d.count (coordinate draw.bin d.count t) draw.x
  /-- A probability is refused behind the last bin only. -/
  probability_error_iff : ∀ i f, d.probability i = .error f ↔
    f = .indexNotBelowCount ∧ d.count ≤ i
  /-- Probabilities are finite and not negative. -/
  probability_ok : ∀ i p, d.probability i = .ok p → p.IsDensity
  /-- A bin is always selected. -/
  select_ok : ∀ u, ∃ s, d.select u = .ok s ∧ s.bin < d.count ∧ s.probability.IsDensity
  /-- A bin is always selected, and the rest of the variate lies in the half-open unit interval. -/
  selectRemapped_ok : ∀ u, ∃ s t, d.selectRemapped u = .ok (s, t) ∧ s.bin < d.count ∧
    s.probability.IsDensity ∧ Binary.zero ≤ t ∧ t < Binary.one
  /-- There is a density at every coordinate. -/
  densityAt_ok : ∀ x, ∃ p, d.densityAt x = .ok p ∧ p.IsDensity

section

variable {weights : List Single} {d : StepDensity} (hWord : weights.length < 2 ^ 64)
  (hBuild : build weights = .ok d)

include hWord hBuild

/-- The search for a bin, as a run on words. -/
theorem exists_bin_run (u : Single) : ∃ k, d.bin u = .ok k ∧ k < d.count ∧
    (d.cdf.size < UInt64.size →
      ∃ probes, (∀ ps j, Search.FindsInterval (d.reaches u) d.cdf.size ps j ↔ ps = probes ∧ j = k) ∧
        ∀ i ∈ probes, ∃ a, d.cdf[i]? = some a) := by
  have hSize : d.cdf.size = weights.length + 1 := by
    simpa using (cdf_isCumulative hWord hBuild).length_eq
  have hPos := length_pos_of_build hBuild
  obtain ⟨k, hBin, hBound⟩ := exists_bin hWord hBuild u
  refine ⟨k, hBin, by rwa [count_eq hBuild], fun hCdfWord => ?_⟩
  have hTwo : 2 ≤ d.cdf.size := by omega
  obtain ⟨probes, hFinds, hInside⟩ := Search.exists_findsInterval (d.reaches u) hTwo hCdfWord
  rw [bin_eq_interval, Search.interval_eq_elim _ hTwo, Except.ok.injEq] at hBin
  rw [hBin] at hFinds
  refine ⟨probes, fun ps j => ⟨fun hOther => hOther.unique hFinds, ?_⟩, ?_⟩
  · rintro ⟨rfl, rfl⟩
    exact hFinds
  · intro i hProbe
    exact ⟨_, Array.getElem?_eq_getElem (hInside i hProbe)⟩

/-- Sampling is refused or goes through, and which of them is known. -/
theorem sample_cases (u : Single) :
    (u.isNaN = true ∧ Binary.zero < d.cdf.getD 1 .nan ∧ d.sample u = .error .positionNaN) ∨
    (¬(u.isNaN = true ∧ Binary.zero < d.cdf.getD 1 .nan) ∧
      ∃ k t x p, d.bin u = .ok k ∧ k < d.count ∧ d.position u k = .ok t ∧ d.density k = .ok p ∧
        d.sample u = .ok ⟨x, p, k⟩ ∧ Bins.WalksInto k d.count (coordinate k d.count t) x) := by
  have hCdf := cdf_isCumulative hWord hBuild
  have hPos := length_pos_of_build hBuild
  obtain ⟨k, hBin, hBound⟩ := exists_bin hWord hBuild u
  obtain ⟨t, hPlace, hNaN, hRange⟩ := position_of_bin hCdf hPos hBin
  obtain ⟨hRefused, hSampled⟩ := sample_of_position hWord hBuild hBin hPlace hRange
  cases hCase : t.isNaN with
  | true =>
      obtain ⟨hu, hWidth⟩ := hNaN.mp hCase
      exact Or.inl ⟨hu, hWidth, hRefused hCase⟩
  | false =>
      obtain ⟨x, p, hSample, hDensity, hWalk⟩ := hSampled hCase
      refine Or.inr ⟨?_, k, t, x, p, hBin, by rw [count_eq hBuild]; exact hBound, hPlace, hDensity,
        hSample, hWalk⟩
      intro hBoth
      rw [hNaN.mpr hBoth] at hCase
      cases hCase

omit hWord hBuild in
/-- Selecting returns the bin with its probability. -/
theorem select_of_bin {u p : Single} {k : Nat} (hBin : d.bin u = .ok k)
    (hProbability : d.probability k = .ok p) : d.select u = .ok ⟨k, p⟩ := by
  rw [select, hBin]
  show (d.probability k >>= _) = _
  rw [hProbability]
  rfl

/-- Selecting goes through, and the rest of the variate is its place, kept below one. -/
theorem selectRemapped_of_position {u t : Single} {k : Nat} (hBin : d.bin u = .ok k)
    (hPlace : d.position u k = .ok t) :
    ∃ p, p.IsDensity ∧ d.select u = .ok ⟨k, p⟩ ∧
      d.selectRemapped u = .ok (⟨k, p⟩, lesser t Single.belowOne) := by
  have hBound := bin_lt (cdf_isCumulative hWord hBuild) (length_pos_of_build hBuild) hBin
  rw [← count_eq hBuild] at hBound
  obtain ⟨p, hProbability, hp⟩ := probability_of_lt hWord hBuild hBound
  refine ⟨p, hp, select_of_bin hBin hProbability, ?_⟩
  rw [selectRemapped, hBin]
  show (d.position u k >>= _) = _
  rw [hPlace]
  show (d.probability k >>= _) = _
  rw [hProbability]
  rfl

/-- A selection with its place, which is kept below one. -/
theorem selectRemapped_eq_ok (u : Single) :
    ∃ s t, d.select u = .ok s ∧ d.selectRemapped u = .ok (s, t) ∧ s.bin < d.count ∧
      s.probability.IsDensity ∧ Binary.zero ≤ t ∧ t < Binary.one := by
  obtain ⟨k, hBin, hBound⟩ := exists_bin hWord hBuild u
  rw [← count_eq hBuild] at hBound
  obtain ⟨t, hPlace, _, hRange⟩ :=
    position_of_bin (cdf_isCumulative hWord hBuild) (length_pos_of_build hBuild) hBin
  obtain ⟨p, hp, hSelect, hRemapped⟩ := selectRemapped_of_position hWord hBuild hBin hPlace
  have hLow : 0 ≤ t.value := by
    cases t with
    | nan => exact (Format.keyValue_zero .single).ge
    | signed s m => exact (hRange rfl).1
  obtain ⟨hRestLow, hRestHigh⟩ := lesser_belowOne_range hLow
  exact ⟨⟨k, p⟩, _, hSelect, hRemapped, hBound, hp, hRestLow, hRestHigh⟩

theorem sample_eq_error_iff (u : Single) (f : Fault) : d.sample u = .error f ↔
    f = .positionNaN ∧ u.isNaN = true ∧ Binary.zero < d.cdf.getD 1 .nan := by
  rcases sample_cases hWord hBuild u with
    ⟨hu, hWidth, hRefused⟩ | ⟨hNot, _, _, _, _, _, _, _, _, hSample, _⟩
  · rw [hRefused, Except.error.injEq, eq_comm]
    exact ⟨fun hf => ⟨hf, hu, hWidth⟩, fun hf => hf.1⟩
  · rw [hSample]
    constructor
    · intro hf
      cases hf
    · rintro ⟨_, hBoth⟩
      exact absurd hBoth hNot

theorem probability_eq_error_iff (i : Nat) (f : Fault) : d.probability i = .error f ↔
    f = .indexNotBelowCount ∧ d.count ≤ i := by
  by_cases hIndex : i < d.count
  · obtain ⟨p, hProbability, _⟩ := probability_of_lt hWord hBuild hIndex
    rw [hProbability]
    constructor
    · intro hf
      cases hf
    · rintro ⟨_, hBehind⟩
      omega
  · rw [probability, if_neg hIndex, Except.error.injEq, eq_comm]
    exact ⟨fun hf => ⟨hf, by omega⟩, fun hf => hf.1⟩

/-- A built density answers its queries. -/
theorem answers_of_build : d.Answers where
  bin_ok := exists_bin_run hWord hBuild
  sample_error_iff := sample_eq_error_iff hWord hBuild
  sample_ok := by
    intro u draw hDraw
    rcases sample_cases hWord hBuild u with
      ⟨_, _, hRefused⟩ | ⟨_, k, t, x, p, hBin, hBound, hPlace, hDensity, hSample, hWalk⟩
    · rw [hRefused] at hDraw
      cases hDraw
    · obtain rfl := Except.ok.inj (hSample.symm.trans hDraw)
      exact ⟨hBound, (density_range hWord hBuild hDensity).1, hBin, t, hPlace, hWalk⟩
  probability_error_iff := probability_eq_error_iff hWord hBuild
  probability_ok := by
    intro i p hOk
    have hIndex : i < d.count := by
      by_contra hBehind
      rw [(probability_eq_error_iff hWord hBuild i _).mpr ⟨rfl, by omega⟩] at hOk
      cases hOk
    obtain ⟨q, hProbability, hq⟩ := probability_of_lt hWord hBuild hIndex
    obtain rfl := Except.ok.inj (hProbability.symm.trans hOk)
    exact hq
  select_ok := by
    intro u
    obtain ⟨s, _, hSelect, _, hBound, hs, _⟩ := selectRemapped_eq_ok hWord hBuild u
    exact ⟨s, hSelect, hBound, hs⟩
  selectRemapped_ok := by
    intro u
    obtain ⟨s, t, _, hRemapped, hRest⟩ := selectRemapped_eq_ok hWord hBuild u
    exact ⟨s, t, hRemapped, hRest⟩
  densityAt_ok := by
    intro x
    have hPos : 1 ≤ d.count := by
      rw [count_eq hBuild]
      exact length_pos_of_build hBuild
    obtain ⟨p, hDensity⟩ := density_eq_ok (Bins.binOf_lt x hPos)
    refine ⟨p, ?_, (density_range hWord hBuild hDensity).1⟩
    rw [densityAt, Bins.bin, if_neg (by omega)]
    exact hDensity

end

end StepDensity

end StepSampling
