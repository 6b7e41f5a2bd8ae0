import StepSampling.Proofs.Density.Sums

/-!
# The cumulative distribution of a built density

`IsCumulative n cdf` is what every search and every sample relies on: `n + 1` entries from zero to one
that never decrease.  Both ways to a cumulative distribution lead there, the quotients of the running
sums with their tail set to one, and the equal steps that stand in when the integral is zero.
-/

namespace StepSampling

/-- A cumulative distribution over `n` bins. -/
structure IsCumulative (n : Nat) (cdf : List Single) : Prop where
  /-- There is an entry for every edge. -/
  length_eq : cdf.length = n + 1
  /-- It starts at zero. -/
  first : cdf[0]? = some Binary.zero
  /-- It ends at one. -/
  last : cdf[n]? = some Binary.one
  /-- It never decreases. -/
  sorted : cdf.Pairwise (· ≤ ·)

namespace IsCumulative

variable {n : Nat} {cdf : List Single}

theorem le_of_getElem? (h : IsCumulative n cdf) {i j : Nat} {a b : Single} (hLt : i < j)
    (ha : cdf[i]? = some a) (hb : cdf[j]? = some b) : a ≤ b := by
  obtain ⟨hi, rfl⟩ := List.getElem?_eq_some_iff.mp ha
  obtain ⟨hj, rfl⟩ := List.getElem?_eq_some_iff.mp hb
  exact List.pairwise_iff_getElem.mp h.sorted i j hi hj hLt

theorem range (h : IsCumulative n cdf) {a : Single} (hMem : a ∈ cdf) :
    Binary.zero ≤ a ∧ a ≤ Binary.one := by
  obtain ⟨i, hEntry⟩ := List.mem_iff_getElem?.mp hMem
  obtain ⟨hIndex, _⟩ := List.getElem?_eq_some_iff.mp hEntry
  have hLength := h.length_eq
  constructor
  · cases i with
    | zero =>
        have hFirst := h.first
        rw [hEntry, Option.some.injEq] at hFirst
        rw [hFirst]
        exact Binary.le_refl rfl
    | succ i => exact h.le_of_getElem? (Nat.succ_pos i) h.first hEntry
  · by_cases hLast : i = n
    · have hEnd := h.last
      rw [← hLast, hEntry, Option.some.injEq] at hEnd
      rw [hEnd]
      exact Binary.le_refl rfl
    · exact h.le_of_getElem? (by omega) hEntry h.last

end IsCumulative

namespace StepDensity

/-! ## Equal steps -/

theorem getElem?_uniformCdf (n i : Nat) (hIndex : i ≤ n) :
    (uniformCdf n)[i]? = some (Binary.ofNat .single i / Binary.ofNat .single n) := by
  rw [uniformCdf, List.getElem?_map, List.getElem?_range (by omega), Option.map_some]

theorem uniformCdf_isCumulative (n : Nat) (hPos : 1 ≤ n) (hWord : n < 2 ^ 64) :
    IsCumulative n (uniformCdf n) := by
  obtain ⟨hFinite, hOne⟩ := Binary.count_isFinite n hPos hWord
  have hCount : ∀ i ≤ n, (Binary.ofNat .single i).isFinite = true := by
    intro i hLe
    apply (Binary.ofNat_rounds (F := .single) i).isFinite (Nat.cast_nonneg i)
    exact_mod_cast (by omega : i ≤ 2 ^ 100)
  refine ⟨by rw [uniformCdf, List.length_map, List.length_range], ?_, ?_, ?_⟩
  · rw [getElem?_uniformCdf n 0 (Nat.zero_le n), Option.some.injEq]
    have hZero : Binary.ofNat .single 0 = (Binary.zero : Single) := by decide
    rw [hZero]
    exact Binary.zero_div_eq_zero hFinite (by linarith)
  · rw [getElem?_uniformCdf n n (Nat.le_refl n), Option.some.injEq]
    exact Binary.div_self_eq_one hFinite (by linarith)
  · rw [uniformCdf, List.pairwise_map]
    apply List.pairwise_lt_range.imp_of_mem
    intro i j hi hj hLt
    rw [List.mem_range] at hi hj
    have hLe : Binary.ofNat .single i ≤ Binary.ofNat .single j := by
      refine Binary.le_iff_value.mpr ⟨rfl, rfl, ?_⟩
      apply (Binary.ofNat_rounds i).value_mono (Binary.ofNat_rounds j)
      exact_mod_cast hLt.le
    exact Binary.div_mono hLe (hCount i (by omega)) (hCount j (by omega)) hFinite (by linarith)

/-! ## The last positive weight -/

/-- No weight behind the support is positive. -/
theorem not_pos_of_support_le (weights : List Single) {i : Nat} {w : Single}
    (hLe : support weights ≤ i) (hWeight : weights[i]? = some w) : ¬Binary.zero < w := by
  induction weights generalizing i with
  | nil => simp at hWeight
  | cons v rest ih =>
      rw [support] at hLe
      cases i with
      | zero =>
          rw [List.getElem?_cons_zero, Option.some.injEq] at hWeight
          subst hWeight
          split at hLe
          · split at hLe
            · omega
            · assumption
          · omega
      | succ i =>
          rw [List.getElem?_cons_succ] at hWeight
          split at hLe
          · next hRest => exact ih (by omega) hWeight
          · next k hRest => exact ih (by omega) hWeight

/-- The support ends with a positive weight. -/
theorem pos_of_support_eq (weights : List Single) {k : Nat} (hSupport : support weights = k + 1) :
    ∃ w, weights[k]? = some w ∧ Binary.zero < w := by
  induction weights generalizing k with
  | nil => simp [support] at hSupport
  | cons v rest ih =>
      rw [support] at hSupport
      split at hSupport
      · split at hSupport
        · next hPos =>
          obtain rfl : k = 0 := by omega
          exact ⟨v, rfl, hPos⟩
        · omega
      · next l hRest =>
        obtain rfl : k = l + 1 := by omega
        exact ih hRest

/-! ## Quotients of the sums -/

theorem getElem?_pinFrom (k i : Nat) (entries : List Single) :
    (pinFrom k entries)[i]? =
      if i < k then entries[i]? else entries[i]?.map fun _ => Binary.one := by
  rw [pinFrom, List.getElem?_append, List.length_take]
  by_cases hBefore : i < k
  · rw [if_pos hBefore]
    by_cases hInside : i < entries.length
    · rw [if_pos (by omega), List.getElem?_take_of_lt hBefore]
    · rw [if_neg (by omega), List.getElem?_map, List.getElem?_drop,
        List.getElem?_eq_none (by omega), List.getElem?_eq_none (by omega), Option.map_none]
  · rw [if_neg (by omega), if_neg hBefore, List.getElem?_map, List.getElem?_drop]
    by_cases hInside : k ≤ entries.length
    · rw [Nat.min_eq_left hInside, Nat.add_sub_cancel' (by omega)]
    · rw [List.getElem?_eq_none (by omega), List.getElem?_eq_none (by omega)]

/-- Setting a tail to one keeps what is sorted and at most one sorted. -/
theorem pinFrom_sorted (k : Nat) (entries : List Single) (hSorted : entries.Pairwise (· ≤ ·))
    (hHigh : ∀ a ∈ entries, a ≤ Binary.one) : (pinFrom k entries).Pairwise (· ≤ ·) := by
  rw [pinFrom, List.pairwise_append]
  refine ⟨hSorted.sublist (List.take_sublist k entries), ?_, ?_⟩
  · rw [List.pairwise_map]
    exact List.pairwise_of_forall fun _ _ => Binary.le_refl rfl
  · intro a ha b hb
    obtain ⟨_, _, rfl⟩ := List.mem_map.mp hb
    exact hHigh a (List.mem_of_mem_take ha)

section

variable {weights : List Single}

theorem getElem?_sums_length (weights : List Single) :
    (sums weights)[weights.length]? = some ((sums weights).getLastD Binary.zero) := by
  have hLength := length_sums weights
  have hNonempty : sums weights ≠ [] := by
    intro hNil
    rw [hNil] at hLength
    cases hLength
  rw [List.getLastD_eq_getLast?, List.getLast?_eq_getElem?, hLength, Nat.add_sub_cancel,
    List.getElem?_eq_getElem (by omega), Option.getD_some]

/-- The sums of accepted weights lie between zero and the integral and have no sign. -/
theorem sums_range (hNonempty : weights ≠ []) (hWord : weights.length < 2 ^ 64)
    (hWeights : ∀ w ∈ weights, w.isWeight = true) {s : Single} (hMem : s ∈ sums weights) :
    Binary.zero ≤ s ∧ s ≤ (sums weights).getLastD Binary.zero ∧ s.negative = false := by
  obtain ⟨hFinite, hOne⟩ :=
    Binary.count_isFinite weights.length (List.length_pos_iff.mpr hNonempty) hWord
  have hZero : (Binary.zero : Single) ≤ Binary.zero := Binary.le_refl rfl
  obtain ⟨hLow, hSign⟩ := le_of_mem_runningSums hFinite hOne hZero rfl hWeights s hMem
  refine ⟨hLow, ?_, hSign⟩
  obtain ⟨i, hEntry⟩ := List.mem_iff_getElem?.mp hMem
  obtain ⟨hIndex, hAt⟩ := List.getElem?_eq_some_iff.mp hEntry
  have hLength := length_sums weights
  have hLast := getElem?_sums_length weights
  by_cases hEnd : i = weights.length
  · rw [hEnd, hLast, Option.some.injEq] at hEntry
    rw [hEntry]
    exact Binary.le_refl hLow.2.1
  · obtain ⟨hLastIndex, hLastAt⟩ := List.getElem?_eq_some_iff.mp hLast
    rw [← hLastAt, ← hAt]
    exact List.pairwise_iff_getElem.mp (runningSums_sorted hFinite hOne hZero rfl hWeights)
      i weights.length hIndex hLastIndex (by omega)

/-- The share of a weight of zero is zero, and adding it gives the same sum. -/
theorem sums_level (hNonempty : weights ≠ []) (hWord : weights.length < 2 ^ 64)
    (hWeights : ∀ w ∈ weights, w.isWeight = true) {i : Nat} {w : Single}
    (hWeight : weights[i]? = some w) (hZero : w.isZero = true) :
    (sums weights)[i + 1]? = (sums weights)[i]? := by
  obtain ⟨hCount, hOne⟩ :=
    Binary.count_isFinite (F := .single) weights.length (List.length_pos_iff.mpr hNonempty) hWord
  obtain ⟨hIndex, _⟩ := List.getElem?_eq_some_iff.mp hWeight
  obtain ⟨s, hSum⟩ := exists_sum hIndex.le
  have hw := hWeights w (List.mem_of_getElem? hWeight)
  obtain ⟨_, hShare⟩ := share_rounds hCount hOne hw
  rw [((Binary.isZero_iff w).mp hZero).2, zero_div, ← Binary.value_zero (F := .single)] at hShare
  have hShareZero := hShare.value_eq rfl
  rw [Binary.value_zero] at hShareZero
  obtain ⟨hLow, _, hSign⟩ := sums_range hNonempty hWord hWeights (List.mem_of_getElem? hSum)
  rw [sums_succ hSum hWeight, hSum,
    Binary.add_of_value_zero hLow hSign (share_nonneg hCount hOne hw).2 hShareZero]

/-- Behind the last positive weight the sums do not move any more. -/
theorem sums_behind_support (hNonempty : weights ≠ []) (hWord : weights.length < 2 ^ 64)
    (hWeights : ∀ w ∈ weights, w.isWeight = true) {k : Nat} (hBehind : support weights ≤ k)
    {s : Single} (hSum : (sums weights)[k]? = some s) : s = (sums weights).getLastD Binary.zero := by
  have hIndex := index_le_of_sum hSum
  have hLevel : ∀ m, k ≤ m → m ≤ weights.length → (sums weights)[m]? = some s := by
    intro m hLe
    induction m, hLe using Nat.le_induction with
    | base => exact fun _ => hSum
    | succ m hLe ih =>
        intro hHigh
        have hWeight : weights[m]? = some weights[m] := List.getElem?_eq_getElem (by omega)
        have hNot := not_pos_of_support_le weights (hBehind.trans hLe) hWeight
        obtain ⟨hNumber, hNonneg⟩ := Binary.zero_le_iff.mp
          ((Single.isWeight_iff _).mp (hWeights _ (List.mem_of_getElem? hWeight))).2
        have hZero : weights[m].isZero = true := by
          refine (Binary.isZero_iff _).mpr ⟨hNumber, le_antisymm (not_lt.mp ?_) hNonneg⟩
          exact fun hPos => hNot (Binary.zero_lt_iff.mpr ⟨hNumber, hPos⟩)
        rw [sums_level hNonempty hWord hWeights hWeight hZero]
        exact ih (by omega)
  have hLast := hLevel weights.length hIndex le_rfl
  rw [getElem?_sums_length, Option.some.injEq] at hLast
  exact hLast.symm

private theorem quotients_sorted (hNonempty : weights ≠ []) (hWord : weights.length < 2 ^ 64)
    (hWeights : ∀ w ∈ weights, w.isWeight = true) {integral : Single}
    (hLast : integral = (sums weights).getLastD Binary.zero) (hFinite : integral.isFinite = true)
    (hPos : 0 < integral.value) :
    ((sums weights).map (· / integral)).Pairwise (· ≤ ·) ∧
      ∀ a ∈ (sums weights).map (· / integral), a ≤ Binary.one := by
  obtain ⟨hCount, hOne⟩ :=
    Binary.count_isFinite weights.length (List.length_pos_iff.mpr hNonempty) hWord
  have hSums : ∀ s ∈ sums weights, s ≤ integral ∧ s.isFinite = true := by
    intro s hMem
    obtain ⟨hLow, hHigh, _⟩ := sums_range hNonempty hWord hWeights hMem
    rw [← hLast] at hHigh
    exact ⟨hHigh, Binary.isFinite_of_le hLow hHigh hFinite⟩
  constructor
  · rw [List.pairwise_map]
    apply (runningSums_sorted hCount hOne (Binary.le_refl rfl) rfl hWeights).imp_of_mem
    intro a b ha hb hLe
    exact Binary.div_mono hLe (hSums a ha).2 (hSums b hb).2 hFinite hPos
  · intro a hMem
    obtain ⟨s, hs, rfl⟩ := List.mem_map.mp hMem
    rw [← Binary.div_self_eq_one hFinite hPos]
    exact Binary.div_mono (hSums s hs).1 (hSums s hs).2 hFinite hFinite hPos

/-- An entry is the quotient of its sum, or one if it lies behind the last positive weight. -/
theorem getElem?_normalisedCdf (entries : List Single) (integral : Single) (i : Nat) :
    (normalisedCdf weights entries integral)[i]? = entries[i]?.map fun s =>
      if 0 < support weights ∧ support weights ≤ i then Binary.one else s / integral := by
  unfold normalisedCdf
  dsimp only
  split
  · next hNone => simp [hNone]
  · next k hSome =>
    rw [getElem?_pinFrom, hSome]
    by_cases hBefore : i < k + 1
    · rw [if_pos hBefore, List.getElem?_map]
      simp [show ¬k + 1 ≤ i by omega]
    · rw [if_neg hBefore, List.getElem?_map, Option.map_map]
      simp [show k + 1 ≤ i by omega, Function.comp_def]

/-- The sums over a positive integral are a cumulative distribution. -/
theorem normalisedCdf_isCumulative (hNonempty : weights ≠ []) (hWord : weights.length < 2 ^ 64)
    (hWeights : ∀ w ∈ weights, w.isWeight = true) {integral : Single}
    (hLast : integral = (sums weights).getLastD Binary.zero) (hFinite : integral.isFinite = true)
    (hPos : 0 < integral.value) :
    IsCumulative weights.length (normalisedCdf weights (sums weights) integral) := by
  have hLength := length_sums weights
  obtain ⟨hSorted, hHigh⟩ :=
    quotients_sorted hNonempty hWord hWeights hLast hFinite hPos
  refine ⟨?_, ?_, ?_, ?_⟩
  · unfold normalisedCdf
    dsimp only
    split
    · rw [List.length_map, hLength]
    · rw [pinFrom, List.length_append, List.length_map, List.length_take, List.length_drop,
        List.length_map, hLength]
      omega
  · rw [getElem?_normalisedCdf, sums_zero, Option.map_some, if_neg (by omega),
      Binary.zero_div_eq_zero hFinite hPos]
  · rw [getElem?_normalisedCdf, getElem?_sums_length, Option.map_some, ← hLast,
      Binary.div_self_eq_one hFinite hPos, ite_self]
  · unfold normalisedCdf
    dsimp only
    split
    · exact hSorted
    · exact pinFrom_sorted _ _ hSorted hHigh

end

/-! ## Built densities -/

section

variable {weights : List Single} {d : StepDensity}

/-- The number of bins, as a number. -/
theorem count_range (hWord : weights.length < 2 ^ 64) (hBuild : build weights = .ok d) :
    (Binary.ofNat .single weights.length : Single).isFinite = true ∧
      1 ≤ (Binary.ofNat .single weights.length : Single).value :=
  Binary.count_isFinite weights.length (length_pos_of_build hBuild) hWord

/-- The integral is the last sum. -/
theorem getElem?_sums_integral (hBuild : build weights = .ok d) :
    (sums weights)[weights.length]? = some d.integral := by
  obtain ⟨_, _, _, hIntegral, _, _⟩ := build_eq_ok hBuild
  rw [hIntegral, getElem?_sums_length]

/-- The sums of a built density are finite, since the integral is. -/
theorem sum_of_build (hWord : weights.length < 2 ^ 64) (hBuild : build weights = .ok d) {k : Nat}
    {s : Single} (hSum : (sums weights)[k]? = some s) :
    Binary.zero ≤ s ∧ s ≤ d.integral ∧ s.isFinite = true := by
  obtain ⟨hNonempty, hWeights, _, hIntegral, hFinite, _⟩ := build_eq_ok hBuild
  obtain ⟨hLow, hHigh, _⟩ := sums_range hNonempty hWord hWeights (List.mem_of_getElem? hSum)
  rw [← hIntegral] at hHigh
  exact ⟨hLow, hHigh, Binary.isFinite_of_le hLow hHigh hFinite⟩

theorem integral_nonneg (hWord : weights.length < 2 ^ 64) (hBuild : build weights = .ok d) :
    Binary.zero ≤ d.integral :=
  (sum_of_build hWord hBuild (getElem?_sums_integral hBuild)).1

/-- An integral that is not zero is positive. -/
theorem integral_pos (hWord : weights.length < 2 ^ 64) (hBuild : build weights = .ok d)
    (hNonzero : d.integral.isZero = false) : 0 < d.integral.value := by
  obtain ⟨hNumber, hNonneg⟩ := Binary.zero_le_iff.mp (integral_nonneg hWord hBuild)
  apply lt_of_le_of_ne hNonneg
  intro hZero
  rw [(Binary.isZero_iff d.integral).mpr ⟨hNumber, hZero.symm⟩] at hNonzero
  cases hNonzero

/-- The cumulative distribution of a built density is one. -/
theorem cdf_isCumulative (hWord : weights.length < 2 ^ 64) (hBuild : build weights = .ok d) :
    IsCumulative weights.length d.cdf.toList := by
  obtain ⟨hNonempty, hWeights, _, hIntegral, hFinite, hCdf⟩ := build_eq_ok hBuild
  rw [hCdf]
  cases hZero : d.integral.isZero with
  | true => exact uniformCdf_isCumulative _ (List.length_pos_iff.mpr hNonempty) hWord
  | false =>
      exact normalisedCdf_isCumulative hNonempty hWord hWeights hIntegral hFinite
        (integral_pos hWord hBuild hZero)

/-- Outside the uniform case an entry behind the last positive weight is exactly one. -/
theorem cdf_eq_one (hWord : weights.length < 2 ^ 64) (hBuild : build weights = .ok d)
    (hNonzero : d.integral.isZero = false) {last j : Nat} {w : Single}
    (hLast : weights[last]? = some w) (hPos : Binary.zero < w)
    (hBehind : ∀ i v, last < i → weights[i]? = some v → ¬Binary.zero < v)
    (hLow : last < j) (hHigh : j ≤ weights.length) : d.cdf[j]? = some Binary.one := by
  obtain ⟨_, _, _, _, _, hCdf⟩ := build_eq_ok hBuild
  have hSupport : support weights = last + 1 := by
    have hAtLeast : last < support weights := by
      by_contra hNot
      exact not_pos_of_support_le weights (by omega) hLast hPos
    obtain ⟨k, hk⟩ : ∃ k, support weights = k + 1 := ⟨support weights - 1, by omega⟩
    obtain ⟨v, hv, hvPos⟩ := pos_of_support_eq weights hk
    by_contra hNot
    exact hBehind k v (by omega) hv hvPos
  have hLength := length_sums weights
  rw [hCdf, hNonzero, if_neg Bool.false_ne_true, List.getElem?_toArray, getElem?_normalisedCdf,
    List.getElem?_eq_getElem (by omega), Option.map_some, if_pos ⟨by omega, by omega⟩]

/-- Outside the uniform case every entry is the quotient of its sum and the integral.  Behind the last
positive weight the sums are the integral itself, so setting the entries there to one does not change
them. -/
theorem cdf_eq_quotient (hWord : weights.length < 2 ^ 64) (hBuild : build weights = .ok d)
    (hNonzero : d.integral.isZero = false) {k : Nat} {s : Single}
    (hSum : (sums weights)[k]? = some s) : d.cdf[k]? = some (s / d.integral) := by
  obtain ⟨hNonempty, hWeights, _, hIntegral, hFinite, hCdf⟩ := build_eq_ok hBuild
  rw [hCdf, hNonzero, if_neg Bool.false_ne_true, List.getElem?_toArray, getElem?_normalisedCdf, hSum,
    Option.map_some, Option.some.injEq]
  split
  · next hPinned =>
    have hSame := sums_behind_support hNonempty hWord hWeights hPinned.2 hSum
    rw [hSame, ← hIntegral, Binary.div_self_eq_one hFinite (integral_pos hWord hBuild hNonzero)]
  · rfl

/-- Outside the uniform case the segment of a bin with weight zero has no width. -/
theorem cdf_level (hWord : weights.length < 2 ^ 64) (hBuild : build weights = .ok d)
    (hNonzero : d.integral.isZero = false) {i : Nat} {w : Single} (hWeight : weights[i]? = some w)
    (hZero : w.isZero = true) : d.cdf[i + 1]? = d.cdf[i]? := by
  obtain ⟨hNonempty, hWeights, _, _, _, _⟩ := build_eq_ok hBuild
  obtain ⟨hIndex, _⟩ := List.getElem?_eq_some_iff.mp hWeight
  obtain ⟨s, hSum⟩ := exists_sum hIndex.le
  have hNext := (sums_level hNonempty hWord hWeights hWeight hZero).trans hSum
  rw [cdf_eq_quotient hWord hBuild hNonzero hSum, cdf_eq_quotient hWord hBuild hNonzero hNext]

/-- **What a built density holds.**  The weights are kept as they are; the cumulative distribution has
one entry more than there are weights, runs from exactly zero to exactly one without decreasing, and
never leaves the unit interval; outside the uniform case it is exactly one behind the last positive
weight and level over every weight of zero.  The integral is finite and not negative.  Lengths are
words of 64 bits. -/
theorem representation_of_build (weights : List Single) (d : StepDensity)
    (hWord : weights.length < 2 ^ 64) (hBuild : build weights = .ok d) :
    d.weights.toList = weights ∧
      d.cdf.size = weights.length + 1 ∧
      d.cdf[0]? = some Binary.zero ∧
      d.cdf.toList.Pairwise (· ≤ ·) ∧
      (∀ a ∈ d.cdf, a.isNaN = false ∧ Binary.zero ≤ a ∧ a ≤ Binary.one) ∧
      d.cdf[weights.length]? = some Binary.one ∧
      (d.integral.isZero = false →
        (∀ last w, weights[last]? = some w → Binary.zero < w →
          (∀ i v, last < i → weights[i]? = some v → ¬Binary.zero < v) →
          ∀ j, last < j → j ≤ weights.length → d.cdf[j]? = some Binary.one) ∧
        ∀ i w, weights[i]? = some w → w.isZero = true → d.cdf[i + 1]? = d.cdf[i]?) ∧
      d.integral.isFinite = true ∧
      Binary.zero ≤ d.integral := by
  obtain ⟨_, _, hKept, _, hFinite, _⟩ := build_eq_ok hBuild
  have hCdf := cdf_isCumulative hWord hBuild
  refine ⟨by rw [hKept], by simpa using hCdf.length_eq, by simpa using hCdf.first, hCdf.sorted,
    ?_, by simpa using hCdf.last, ?_, hFinite, integral_nonneg hWord hBuild⟩
  · intro a hMem
    obtain ⟨hLow, hHigh⟩ := hCdf.range (Array.mem_toList_iff.mpr hMem)
    exact ⟨hLow.2.1, hLow, hHigh⟩
  · intro hNonzero
    constructor
    · intro last w hLast hPos hBehind j hLow hHigh
      exact cdf_eq_one hWord hBuild hNonzero hLast hPos hBehind hLow hHigh
    · intro i w hWeight hZero
      exact cdf_level hWord hBuild hNonzero hWeight hZero

/-- Weights with a zero at the start, inside and at the end. -/
theorem representation_of_build_zeros :
    ∃ d, build [.zero, .ofNat .single 2, .zero, .ofNat .single 1, .zero] = .ok d ∧
      d.integral.isZero = false ∧ d.cdf[1]? = d.cdf[0]? ∧ d.cdf[3]? = d.cdf[2]? ∧
      d.cdf[4]? = some Binary.one := by
  refine ⟨_, rfl, by decide +kernel, ?_⟩
  obtain ⟨_, _, _, _, _, _, hInside, _, _⟩ := representation_of_build
    [.zero, .ofNat .single 2, .zero, .ofNat .single 1, .zero] _ (by decide) rfl
  obtain ⟨hTail, hLevel⟩ := hInside (by decide +kernel)
  refine ⟨hLevel 0 .zero rfl rfl, hLevel 2 .zero rfl rfl, ?_⟩
  apply hTail 3 (.ofNat .single 1) rfl (by decide +kernel) ?_ 4 (by decide) (by decide)
  intro i v hBehind hWeight
  match i, hBehind with
  | 4, _ =>
      cases hWeight
      decide
  | i + 5, _ => simp at hWeight

end

end StepDensity

end StepSampling
