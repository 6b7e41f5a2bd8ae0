import StepSampling.Proofs.Density.Drift

/-!
# Which weights are accepted

Weights are refused when there are none, when one of them is negative, infinite or NaN, and when their
running sum overflows.  The first bad weight is named with its place.

The mean of finite weights is finite, but the running sum is not the mean: its roundings may carry it
beyond the greatest number when the weights lie close to it, as ten copies of the greatest number
show.  An addition overflows from the middle between the greatest number and what would follow it, so
acceptance is a condition on the exact results of the additions.  It holds for any number of weights
that stay away from the greatest number, and for weights whose mean leaves room for one rounding for
each of them.
-/

namespace StepSampling

/-- The text of a refused weight names the weight and its place. -/
theorem Refusal.message_badWeight (w : Single) (i : Nat) : (Refusal.badWeight w i).message =
    "invalid argument: function value " ++ w.text ++ " at index " ++ Decimal.natText i ++
      " is not a finite non-negative number" := by
  have hStart (rest : String) : "invalid argument: " ++ ("function value " ++ rest) =
      "invalid argument: function value " ++ rest := by
    rw [← String.append_assoc]
    simp
  show "invalid argument: " ++ ("function value " ++ w.text ++ " at index " ++ Decimal.natText i ++
    " is not a finite non-negative number") = _
  simp only [String.append_assoc, hStart]

/-- Of several bad weights the first one is refused. -/
theorem checkWeights_eq_badWeight_iff (weights : List Single) (w : Single) (i : Nat) :
    checkWeights weights = .error (.badWeight w i) ↔ weights[i]? = some w ∧ ¬w.isWeight = true ∧
      ∀ j v, j < i → weights[j]? = some v → v.isWeight = true := by
  unfold checkWeights
  split
  · next hNil => simp [hNil]
  · split
    · next k hFound =>
      rw [List.findIdx?_eq_some_iff_getElem] at hFound
      obtain ⟨hIndex, hBad, hBefore⟩ := hFound
      have hEntry : weights[k]? = some weights[k] := List.getElem?_eq_getElem hIndex
      have hGood : ∀ j v, j < k → weights[j]? = some v → v.isWeight = true := by
        intro j v hLt hv
        obtain ⟨_, rfl⟩ := List.getElem?_eq_some_iff.mp hv
        simpa using hBefore j hLt
      rw [Except.error.injEq, Refusal.badWeight.injEq, List.getD_eq_getElem?_getD, hEntry,
        Option.getD_some]
      constructor
      · rintro ⟨rfl, rfl⟩
        exact ⟨hEntry, by simpa using hBad, hGood⟩
      · rintro ⟨hw, hwBad, hwBefore⟩
        -- neither place can lie before the other
        rcases Nat.lt_trichotomy k i with hLt | rfl | hLt
        · rw [hwBefore k _ hLt hEntry] at hBad
          cases hBad
        · exact ⟨Option.some.inj (hEntry.symm.trans hw), rfl⟩
        · exact absurd (hGood i w hLt hw) hwBad
    · next hNone =>
      rw [List.findIdx?_eq_none_iff] at hNone
      constructor
      · intro hError
        cases hError
      · rintro ⟨hw, hwBad, _⟩
        have hGood := hNone w (List.mem_of_getElem? hw)
        exact absurd (by simpa using hGood) hwBad

namespace StepDensity

/-! ## Outcomes -/

theorem build_of_checkWeights_error {weights : List Single} {r : Refusal}
    (hCheck : checkWeights weights = .error r) : build weights = .error r := by
  rw [build, hCheck]

/-- Building succeeds if the weights pass their check and the last sum is finite. -/
theorem exists_build_iff (weights : List Single) : (∃ d, build weights = .ok d) ↔
    checkWeights weights = .ok () ∧ ((sums weights).getLastD Binary.zero).isFinite = true := by
  constructor
  · rintro ⟨d, hBuild⟩
    obtain ⟨hNonempty, hWeights, _, hIntegral, hFinite, _⟩ := build_eq_ok hBuild
    rw [hIntegral] at hFinite
    exact ⟨(checkWeights_eq_ok_iff weights).mpr ⟨hNonempty, hWeights⟩, hFinite⟩
  · rintro ⟨hCheck, hFinite⟩
    have hNot : ¬(!((sums weights).getLastD Binary.zero).isFinite) = true := by
      rw [hFinite]
      exact Bool.false_ne_true
    rw [build, hCheck]
    exact ⟨_, if_neg hNot⟩

/-- A weight is refused by its check only. -/
theorem build_eq_badWeight_iff (weights : List Single) (w : Single) (i : Nat) :
    build weights = .error (.badWeight w i) ↔ checkWeights weights = .error (.badWeight w i) := by
  refine ⟨fun hBuild => ?_, build_of_checkWeights_error⟩
  cases hCheck : checkWeights weights with
  | error r =>
      rw [build_of_checkWeights_error hCheck] at hBuild
      cases hBuild
      rfl
  | ok _ => cases build_eq_error hCheck hBuild

/-! ## Overflow -/

/-- No addition on the way to the integral reaches the middle between the greatest number and what
would follow it.  The additions are exact here, of a rounded sum and a rounded share. -/
def StaysBelow (weights : List Single) : Prop :=
  ∀ (k : Nat) (s q : Single), (sums weights)[k]? = some s → (shares weights)[k]? = some q →
    s.value + q.value < 2 ^ 128 - 2 ^ 103

section

variable {weights : List Single} (hNonempty : weights ≠ []) (hWord : weights.length < 2 ^ 64)
  (hWeights : ∀ w ∈ weights, w.isWeight = true)

include hNonempty hWord hWeights

/-- One addition of finite numbers stays finite below the threshold of overflow. -/
theorem step_isFinite_iff {k : Nat} {s q : Single} (hSum : (sums weights)[k]? = some s)
    (hShare : (shares weights)[k]? = some q) (hFinite : s.isFinite = true) :
    (s + q).isFinite = true ↔ s.value + q.value < 2 ^ 128 - 2 ^ 103 := by
  obtain ⟨hq, hqFinite⟩ := share_range hNonempty hWord hWeights (List.mem_of_getElem? hShare)
  have hs := sum_nonneg hNonempty hWord hWeights hSum
  exact Single.isFinite_iff_lt (Binary.add_rounds s q hFinite hqFinite) (by linarith)

/-- All sums are finite if no addition to a finite sum reaches the threshold. -/
theorem sums_isFinite (hBelow : ∀ (k : Nat) (s q : Single), (sums weights)[k]? = some s →
    (shares weights)[k]? = some q → s.isFinite = true → s.value + q.value < 2 ^ 128 - 2 ^ 103)
    {k : Nat} {s : Single} (hSum : (sums weights)[k]? = some s) : s.isFinite = true := by
  induction k generalizing s with
  | zero =>
      rw [sums_zero, Option.some.injEq] at hSum
      rw [← hSum]
      exact Binary.isFinite_zero
  | succ k ih =>
      obtain ⟨a, q, hBefore, hShare, rfl⟩ := exists_of_sums_succ hSum
      have ha := ih hBefore
      exact (step_isFinite_iff hNonempty hWord hWeights hBefore hShare ha).mpr
        (hBelow k a q hBefore hShare ha)

/-- The last sum is finite if and only if no addition reaches the threshold. -/
theorem last_isFinite_iff :
    ((sums weights).getLastD Binary.zero).isFinite = true ↔ StaysBelow weights := by
  constructor
  · intro hFinite k s q hSum hShare
    have hFiniteAt : ∀ a ∈ sums weights, a.isFinite = true := by
      intro a ha
      obtain ⟨hLow, hHigh, _⟩ := sums_range hNonempty hWord hWeights ha
      exact Binary.isFinite_of_le hLow hHigh hFinite
    obtain ⟨hIndex, _⟩ := List.getElem?_eq_some_iff.mp hShare
    rw [length_shares] at hIndex
    have hWeight : weights[k]? = some weights[k] := List.getElem?_eq_getElem hIndex
    have hNext : (sums weights)[k + 1]? = some (s + q) := by
      rw [Option.some.inj (hShare.symm.trans (getElem?_shares hWeight))]
      exact sums_succ hSum hWeight
    exact (step_isFinite_iff hNonempty hWord hWeights hSum hShare
      (hFiniteAt s (List.mem_of_getElem? hSum))).mp (hFiniteAt _ (List.mem_of_getElem? hNext))
  · intro hBelow
    exact sums_isFinite hNonempty hWord hWeights
      (fun k s q hSum hShare _ => hBelow k s q hSum hShare) (getElem?_sums_length weights)

/-- A share that is added is part of the exact sum of all shares. -/
theorem exactSum_add_share_le {k : Nat} {q : Single} (hShare : (shares weights)[k]? = some q) :
    exactSum (shares weights) k + q.value ≤ exactSum (shares weights) weights.length := by
  obtain ⟨hIndex, _⟩ := List.getElem?_eq_some_iff.mp hShare
  rw [length_shares] at hIndex
  rw [← exactSum_succ hShare]
  exact exactSum_shares_mono hNonempty hWord hWeights hIndex

/-- Weights that stay away from the greatest number do not overflow, however many they are. -/
theorem last_isFinite_of_le (hBound : ∀ w ∈ weights, w.value ≤ 2 ^ 124) :
    ((sums weights).getLastD Binary.zero).isFinite = true := by
  refine sums_isFinite hNonempty hWord hWeights ?_ (getElem?_sums_length weights)
  intro k s q hSum hShare hFinite
  have hTwice := sums_le_twice hNonempty hWord hWeights hSum hFinite
  have hRest := exactSum_add_share_le hNonempty hWord hWeights hShare
  have hTotal := exactSum_shares_le hNonempty hWord hWeights hBound le_rfl
  have hq := (share_range hNonempty hWord hWeights (List.mem_of_getElem? hShare)).1
  calc s.value + q.value ≤ 2 * (exactSum (shares weights) k + q.value) := by linarith
    _ ≤ 2 * (6 * 2 ^ 124) := by linarith
    _ < 2 ^ 128 - 2 ^ 103 := by norm_num

theorem exists_build_of_le (hBound : ∀ w ∈ weights, w.value ≤ 2 ^ 124) :
    ∃ d, build weights = .ok d :=
  (exists_build_iff weights).mpr ⟨(checkWeights_eq_ok_iff weights).mpr ⟨hNonempty, hWeights⟩,
    last_isFinite_of_le hNonempty hWord hWeights hBound⟩

/-- Weights whose mean leaves room for the roundings do not overflow. -/
theorem last_isFinite_of_mean_le (hMean : exactSum weights weights.length / weights.length ≤
    (1 - (weights.length + 2) / 2 ^ 24) * Single.greatest.value) :
    ((sums weights).getLastD Binary.zero).isFinite = true := by
  have hLength : (0 : ℚ) < weights.length := Nat.cast_pos.mpr (List.length_pos_iff.mpr hNonempty)
  have hMeanLow : 0 ≤ exactSum weights weights.length / weights.length :=
    div_nonneg (exactSum_weights_mono hWeights (Nat.zero_le _)) hLength.le
  have hGreatest := Single.value_greatest
  have hFew : (weights.length : ℚ) ≤ 2 ^ 24 - 2 := by
    have hFactor := nonneg_of_mul_nonneg_left (hMeanLow.trans hMean) (by rw [hGreatest]; norm_num)
    linarith
  have hSmall : weights.length ≤ 2 ^ 24 := by
    have hCast : (weights.length : ℚ) ≤ (2 ^ 24 : Nat) := by
      push_cast
      linarith
    exact_mod_cast hCast
  refine sums_isFinite hNonempty hWord hWeights ?_ (getElem?_sums_length weights)
  intro k s q hSum hShare hFinite
  have hDrift := (abs_le.mp (sums_drift hNonempty hWord hWeights hSum hFinite)).2
  have hRest := exactSum_add_share_le hNonempty hWord hWeights hShare
  have hTotal := (abs_le.mp (shares_error hNonempty hWord hWeights hSmall le_rfl)).2
  have hRounding : (k : ℚ) / 2 ^ 24 * s.value ≤
      weights.length / 2 ^ 24 * Single.greatest.value := by
    have hIndex : k ≤ weights.length := by
      obtain ⟨hBound, _⟩ := List.getElem?_eq_some_iff.mp hShare
      rw [length_shares] at hBound
      exact hBound.le
    have hs := sum_nonneg hNonempty hWord hWeights hSum
    have hsHigh := Single.value_le_greatest hFinite
    gcongr
  rw [hGreatest] at hMean hRounding
  linarith

end

/-- **Acceptance.**  A density is built if and only if there are weights, all of them are finite and
not negative, and their running sum stays below the threshold of overflow.  The last condition is met
by any number of weights up to `2 ^ 124`, and by weights whose mean is below the greatest number by one
rounding for each of them and two more.  The first weight that is negative, infinite or NaN is refused
with its index; valid weights are refused for overflow only. -/
theorem build_accepts_iff (weights : List Single) (hWord : weights.length < 2 ^ 64) :
    ((∃ d, build weights = .ok d) ↔ weights ≠ [] ∧
      (∀ w ∈ weights, w.isFinite = true ∧ Binary.zero ≤ w) ∧ StaysBelow weights) ∧
    (weights ≠ [] → (∀ w ∈ weights, w.isFinite = true ∧ Binary.zero ≤ w) →
      ((∀ w ∈ weights, w.value ≤ 2 ^ 124) ∨ exactSum weights weights.length / weights.length ≤
        (1 - (weights.length + 2) / 2 ^ 24) * Single.greatest.value → StaysBelow weights) ∧
      (¬StaysBelow weights → build weights = .error (.overflow weights.length))) ∧
    (∀ w i, build weights = .error (.badWeight w i) ↔
      weights[i]? = some w ∧ ¬(w.isFinite = true ∧ Binary.zero ≤ w) ∧
      ∀ j v, j < i → weights[j]? = some v → v.isFinite = true ∧ Binary.zero ≤ v) ∧
    ∀ w i, (Refusal.badWeight w i).message = "invalid argument: function value " ++ w.text ++
      " at index " ++ Decimal.natText i ++ " is not a finite non-negative number" := by
  simp only [← Single.isWeight_iff]
  refine ⟨?_, ?_, ?_, Refusal.message_badWeight⟩
  · rw [exists_build_iff, checkWeights_eq_ok_iff, and_assoc]
    refine and_congr_right fun hNonempty => and_congr_right fun hWeights => ?_
    exact last_isFinite_iff hNonempty hWord hWeights
  · intro hNonempty hWeights
    rw [← last_isFinite_iff hNonempty hWord hWeights]
    constructor
    · rintro (hBound | hMean)
      · exact last_isFinite_of_le hNonempty hWord hWeights hBound
      · exact last_isFinite_of_mean_le hNonempty hWord hWeights hMean
    · intro hInfinite
      have hCheck := (checkWeights_eq_ok_iff weights).mpr ⟨hNonempty, hWeights⟩
      cases hBuild : build weights with
      | ok d => exact absurd ((exists_build_iff weights).mp ⟨d, hBuild⟩).2 hInfinite
      | error r => rw [build_eq_error hCheck hBuild]
  · intro w i
    rw [build_eq_badWeight_iff, checkWeights_eq_badWeight_iff]

/-- A negative weight before a NaN is the one that is refused. -/
theorem build_accepts_iff_negative :
    build [.one, -.one, .nan] = .error (.badWeight (-.one) 1) := by
  obtain ⟨_, _, hRefused, _⟩ := build_accepts_iff [.one, -.one, .nan] (by decide)
  refine (hRefused (-.one) 1).mpr ⟨rfl, by decide +kernel, ?_⟩
  intro j v hLt hv
  obtain rfl : j = 0 := by omega
  cases hv
  decide +kernel

/-- Ten copies of the greatest number are finite, and so is their mean, but they are refused: the
running sum overflows. -/
theorem build_refuses_greatest :
    (∀ w ∈ List.replicate 10 Single.greatest, w.isFinite = true ∧ Binary.zero ≤ w) ∧
      build (List.replicate 10 Single.greatest) = .error (.overflow 10) ∧
      ¬∃ d, build (List.replicate 10 Single.greatest) = .ok d := by
  have hRefused : build (List.replicate 10 Single.greatest) = .error (.overflow 10) := by
    decide +kernel
  refine ⟨by decide +kernel, hRefused, ?_⟩
  rintro ⟨d, hBuild⟩
  rw [hRefused] at hBuild
  cases hBuild

end StepDensity

end StepSampling
