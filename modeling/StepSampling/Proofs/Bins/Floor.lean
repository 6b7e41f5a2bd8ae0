import StepSampling.Proofs.Binary.Limits
import StepSampling.Proofs.Bins
import StepSampling.Survey

/-!
# Bins and exact products

The bin of a coordinate would be the floor of its exact product with the number of bins, if that product
were not rounded.  Up to `2 ^ 23` bins every edge between bins is a number, so rounding crosses none
from above, and crosses one from below only if it lands on it.  So a coordinate may count to the bin
behind its own, but then it lies below the edge by no more than half the spacing of the numbers there.

The centre of a bin is far from both edges.  Up to `2 ^ 22` bins the rounded centre is off the exact one
by no more than a quarter of a bin, and falls into the bin.
-/

namespace StepSampling

/-! ## Centres -/

/-- Quarters of whole numbers are numbers. -/
private theorem exists_quarters {m : Nat} (hSmall : m ≤ 2 ^ 24) :
    ∃ x : Single, x.isFinite = true ∧ x.value = m / 4 := by
  obtain ⟨x, hFinite, hValue⟩ := Binary.exists_value_eq .single m 147 hSmall (by decide)
  refine ⟨x, hFinite, ?_⟩
  rw [hValue, Format.unity_cast, Format.scale]
  ring

/-- Quarters of whole numbers are not changed by rounding. -/
private theorem quarters_of_rounds {x : Single} {m : Nat} (hSmall : m ≤ 2 ^ 24)
    (hx : x.Rounds (m / 4)) : x.isFinite = true ∧ x.value = m / 4 := by
  obtain ⟨y, hFinite, hValue⟩ := exists_quarters hSmall
  have hBound : (m : ℚ) ≤ 2 ^ 24 := by exact_mod_cast hSmall
  refine ⟨hx.isFinite (by positivity) (by linarith), ?_⟩
  rw [← hValue] at hx ⊢
  exact hx.value_eq (Binary.isNaN_of_isFinite hFinite)

/-- A coordinate within a quarter of a bin from the middle of the bin falls into it. -/
theorem Bins.binOf_of_near {x : Single} {k n : Nat} (hNumber : x.isNaN = false) (hBin : k < n)
    (hSmall : n ≤ 2 ^ 22) (hNear : |x.value * n - (k + 1 / 2)| ≤ 1 / 4) : binOf x n = k := by
  have hk : (0 : ℚ) ≤ k := Nat.cast_nonneg k
  have hScaled := scaled_rounds (n := n) (by omega) (by omega) x hNumber
  rw [Binary.value_ofNat_single (by omega)] at hScaled
  obtain ⟨hLow, hHigh⟩ := abs_le.mp hNear
  -- both `k` and `k + 3 / 4` are numbers, so that rounding the product does not cross them
  obtain ⟨low, hLowFinite, hLowValue⟩ := exists_quarters (m := 4 * k) (by omega)
  obtain ⟨high, hHighFinite, hHighValue⟩ := exists_quarters (m := 4 * k + 3) (by omega)
  push_cast at hLowValue hHighValue
  have hFrom := hScaled.le_value (Binary.isNaN_of_isFinite hLowFinite) (by linarith)
  have hTo := hScaled.value_le (Binary.isNaN_of_isFinite hHighFinite) (by linarith)
  have hFloor : ⌊(x * Binary.ofNat .single n).value⌋₊ = k := by
    rw [Nat.floor_eq_iff (by linarith)]
    constructor <;> linarith
  rw [binOf_eq_min, Binary.toWord_eq _ hScaled.1, hFloor, Binary.wordMax_eq]
  omega

/-- The exact centre of a bin, rounded, falls into the bin. -/
theorem Bins.binOf_of_centre {c : Single} {k n : Nat} (hBin : k < n) (hSmall : n ≤ 2 ^ 22)
    (hc : c.Rounds ((k + 1 / 2) / n)) : binOf c n = k := by
  have hCount : (n : ℚ) ≤ 2 ^ 22 := by exact_mod_cast hSmall
  have hPos : (0 : ℚ) < n := by exact_mod_cast (by omega : 0 < n)
  have hInside : (k : ℚ) + 1 ≤ n := by exact_mod_cast hBin
  have hk : (0 : ℚ) ≤ k := Nat.cast_nonneg k
  have hRatio : ((k : ℚ) + 1 / 2) / n ≤ 1 := by
    rw [div_le_one hPos]
    linarith
  have hNormal : 1 / 2 ^ 126 ≤ ((k : ℚ) + 1 / 2) / n := by
    rw [le_div_iff₀ hPos]
    linarith
  have hError := Single.relative_error hc
    (hc.isFinite (by positivity) (hRatio.trans (by norm_num))) hNormal
  apply binOf_of_near hc.1 hBin hSmall
  calc |c.value * n - (k + 1 / 2)| = |(c.value - (k + 1 / 2) / n) * n| := by
        rw [sub_mul, div_mul_cancel₀ _ hPos.ne']
    _ = |c.value - (k + 1 / 2) / n| * n := by rw [abs_mul, abs_of_pos hPos]
    _ ≤ 1 / 2 ^ 24 * ((k + 1 / 2) / n) * n := mul_le_mul_of_nonneg_right hError hPos.le
    _ = 1 / 2 ^ 24 * (k + 1 / 2) := by rw [mul_assoc, div_mul_cancel₀ _ hPos.ne']
    _ ≤ 1 / 4 := by linarith

namespace Survey

/-- Before it is scaled, the centre of a bin is exact. -/
theorem value_index_add_half {k : Nat} (hSmall : k < 2 ^ 22) :
    (Binary.ofNat .single k + Binary.one / Binary.ofNat .single 2 : Single).isFinite = true ∧
      (Binary.ofNat .single k + Binary.one / Binary.ofNat .single 2 : Single).value =
        (k : ℚ) + 1 / 2 := by
  have hTwo := Binary.value_ofNat_single (n := 2) (by decide)
  have hHalfRounds := Binary.div_rounds (Binary.one : Single) (Binary.ofNat .single 2)
    Binary.isFinite_one rfl (by rw [hTwo]; norm_num)
  rw [Binary.value_one, hTwo] at hHalfRounds
  obtain ⟨hHalfFinite, hHalf⟩ := quarters_of_rounds (m := 2) (by decide)
    (by convert hHalfRounds using 1; norm_num)
  have hIndex := Binary.value_ofNat_single (n := k) (by omega)
  have hIndexFinite := (Binary.ofNat_rounds (F := .single) k).isFinite (Nat.cast_nonneg k)
    (by exact_mod_cast (by omega : k ≤ 2 ^ 100))
  have hSum := Binary.add_rounds _ _ hIndexFinite hHalfFinite
  rw [hIndex, hHalf] at hSum
  obtain ⟨hFinite, hValue⟩ := quarters_of_rounds (m := 4 * k + 2) (by omega)
    (by convert hSum using 1; push_cast; ring)
  refine ⟨hFinite, ?_⟩
  rw [hValue]
  push_cast
  ring

/-- The centre that a report is read at is the exact centre, rounded once. -/
theorem centre_rounds {k n : Nat} (hBin : k < n) (hSmall : n ≤ 2 ^ 22) :
    (centre k n).Rounds ((k + 1 / 2) / n) := by
  have hPos : (0 : ℚ) < n := by exact_mod_cast (by omega : 0 < n)
  have hValue := Binary.value_ofNat_single (n := n) (by omega)
  have hFinite := (Binary.count_isFinite (F := .single) n (by omega) (by omega)).1
  obtain ⟨hSumFinite, hSum⟩ := value_index_add_half (k := k) (by omega)
  have hQuotient := Binary.div_rounds _ _ hSumFinite hFinite (by rw [hValue]; exact hPos.ne')
  rwa [hSum, hValue] at hQuotient

/-- Up to `2 ^ 22` bins, the centre of a bin falls into it. -/
theorem binOf_centre {k n : Nat} (hBin : k < n) (hSmall : n ≤ 2 ^ 22) :
    Bins.binOf (centre k n) n = k :=
  Bins.binOf_of_centre hBin hSmall (centre_rounds hBin hSmall)

end Survey

/-! ## The floor -/

namespace Binary

variable {F : Format}

/-- How far a number is from the one below it. -/
def spacingBelow (x : Binary F) : ℚ := x.value - x.down.value

/-- A number that is reached by rounding from below is at most half a spacing away. -/
theorem Rounds.sub_le_spacingBelow {x : Binary F} {q : ℚ} (hx : x.Rounds q) (hNonneg : 0 ≤ q)
    (hBelow : q < x.value) : x.value - q ≤ x.spacingBelow / 2 := by
  obtain ⟨c, hKey, hValue⟩ := exists_code (hx.value_nonneg hNonneg)
  have hPos : c ≠ 0 := by
    rintro rfl
    rw [hValue, F.codeValue_zero] at hBelow
    linarith
  have hDown : x.down.key = ((c - 1 : Nat) : Int) := by
    rw [key_down x hx.1, hKey]
    omega
  have hDownNumber : x.down.isNaN = false := by rw [isNaN_down]; exact hx.1
  have hDownValue : x.down.value = F.codeValue (c - 1) := by
    rw [value, hDown, F.keyValue_natCast]
  have hDownNonneg : 0 ≤ x.down.value := by
    rw [hDownValue]
    exact F.codeValue_nonneg _
  have hStep : x.down.value < x.value := by
    rw [hDownValue, hValue, F.codeValue_strictMono.lt_iff_lt]
    omega
  -- the number below is not passed, for otherwise rounding would have stopped there
  have hPassed : x.down.value ≤ q := by
    by_contra hNot
    have hStopped := hx.value_le hDownNumber (not_le.mp hNot).le
    linarith
  have hMiddle := hx.add_le_two_mul hDownNonneg hPassed
  unfold spacingBelow
  linarith

end Binary

namespace Bins

section

variable {x : Single} {n : Nat} (hPos : 1 ≤ n) (hLow : 0 ≤ x.value) (hHigh : x.value < 1)

include hPos hLow hHigh

/-- The exact product lies before the last edge. -/
theorem floor_lt : ⌊x.value * n⌋₊ < n := by
  rw [Nat.floor_lt (mul_nonneg hLow (Nat.cast_nonneg n))]
  exact mul_lt_of_lt_one_left (Nat.cast_pos.mpr hPos) hHigh

variable (hSmall : n ≤ 2 ^ 23) (hNumber : x.isNaN = false)

include hSmall hNumber

/-- The rounded product lies between the floor of the exact one and the edge behind it. -/
theorem scaled_range :
    (⌊x.value * n⌋₊ : ℚ) ≤ (x * Binary.ofNat .single n).value ∧
      (x * Binary.ofNat .single n).value ≤ (⌊x.value * n⌋₊ + 1 : Nat) := by
  have hProduct : 0 ≤ x.value * n := mul_nonneg hLow (Nat.cast_nonneg n)
  have hFloor := floor_lt hPos hLow hHigh
  have hScaled := scaled_rounds hPos (by omega) x hNumber
  rw [Binary.value_ofNat_single (by omega)] at hScaled
  have hEdge := Binary.value_ofNat_single (n := ⌊x.value * n⌋₊) (by omega)
  have hNext := Binary.value_ofNat_single (n := ⌊x.value * n⌋₊ + 1) (by omega)
  constructor
  · rw [← hEdge]
    exact hScaled.le_value rfl (by rw [hEdge]; exact Nat.floor_le hProduct)
  · rw [← hNext]
    refine hScaled.value_le rfl ?_
    rw [hNext, Nat.cast_add_one]
    exact (Nat.lt_floor_add_one _).le

/-- A coordinate counts to the bin that its exact product lies in, unless the product is rounded to
the edge behind it. -/
theorem binOf_eq_floor_or :
    binOf x n = ⌊x.value * n⌋₊ ∨ (binOf x n = min (⌊x.value * n⌋₊ + 1) (n - 1) ∧
      (x * Binary.ofNat .single n).value = (⌊x.value * n⌋₊ + 1 : Nat)) := by
  obtain ⟨hFrom, hTo⟩ := scaled_range hPos hLow hHigh hSmall hNumber
  have hScaled := scaled_rounds hPos (by omega) x hNumber
  have hFloor := floor_lt hPos hLow hHigh
  rw [binOf_eq_min, Binary.toWord_eq _ hScaled.1, Binary.wordMax_eq]
  rcases hTo.lt_or_eq with hInside | hReached
  · left
    have hSame : ⌊(x * Binary.ofNat .single n).value⌋₊ = ⌊x.value * n⌋₊ := by
      rw [Nat.floor_eq_iff ((Nat.cast_nonneg _).trans hFrom)]
      exact ⟨hFrom, by exact_mod_cast hInside⟩
    rw [hSame]
    omega
  · right
    refine ⟨?_, hReached⟩
    rw [hReached, Nat.floor_natCast]
    omega

end

/-- **Bins are nearly exact floors.**  Whatever the number of bins, a larger coordinate falls into no
earlier bin.  Up to `2 ^ 23` bins, a coordinate of the half-open unit interval falls into the bin that its
exact product with the number of bins lies in, or the one behind it if there is one; in the second case
the product lies below the edge between them by at most half the spacing of the numbers there.  Up to
`2 ^ 22` bins, the rounded centre of a bin falls into the bin. -/
theorem bin_nearly_floor :
    (∀ (x y : Single) (n : Nat), 1 ≤ n → n < 2 ^ 64 → x ≤ y →
      ∃ i j, bin x n = .ok i ∧ bin y n = .ok j ∧ i ≤ j ∧ j ≤ n - 1) ∧
      (∀ (x : Single) (n : Nat), 1 ≤ n → n ≤ 2 ^ 23 → Binary.zero ≤ x → x < Binary.one →
        ∃ i, bin x n = .ok i ∧
          (i = ⌊x.value * n⌋₊ ∨ i = min (⌊x.value * n⌋₊ + 1) (n - 1)) ∧
          (i ≠ ⌊x.value * n⌋₊ → ((⌊x.value * n⌋₊ + 1 : Nat) : ℚ) - x.value * n ≤
            (Binary.ofNat .single (⌊x.value * n⌋₊ + 1)).spacingBelow / 2)) ∧
      ∀ k n : Nat, k < n → n ≤ 2 ^ 22 →
        (Survey.centre k n).Rounds ((k + 1 / 2) / n) ∧
          ∀ c : Single, c.Rounds ((k + 1 / 2) / n) → bin c n = .ok k := by
  have hBin : ∀ (x : Single) {n : Nat}, 1 ≤ n → bin x n = .ok (binOf x n) := fun x n hPos => by
    rw [bin, if_neg (by omega)]
  refine ⟨?_, ?_, ?_⟩
  · intro x y n hPos hWord hLe
    obtain ⟨hx, hy, hKeys⟩ := hLe
    have hLast := binOf_lt y hPos
    exact ⟨_, _, hBin x hPos, hBin y hPos, binOf_mono_key hPos hWord hx hy hKeys, by omega⟩
  · intro x n hPos hSmall hZero hOne
    have hNumber := hZero.2.1
    have hLow := Binary.value_nonneg_of_le hZero
    have hHigh : x.value < 1 := by
      rw [← Binary.value_one (F := .single)]
      exact (Binary.lt_iff_value.mp hOne).2.2
    have hProduct : 0 ≤ x.value * n := mul_nonneg hLow (Nat.cast_nonneg n)
    refine ⟨_, hBin x hPos, ?_⟩
    rcases binOf_eq_floor_or hPos hLow hHigh hSmall hNumber with hFloor | ⟨hNext, hReached⟩
    · exact ⟨.inl hFloor, fun hDiffers => absurd hFloor hDiffers⟩
    · refine ⟨.inr hNext, fun _ => ?_⟩
      -- the product has been rounded up to the edge
      have hFloor := floor_lt hPos hLow hHigh
      have hEdge := Binary.value_ofNat_single (n := ⌊x.value * n⌋₊ + 1) (by omega)
      have hScaled := scaled_rounds hPos (by omega) x hNumber
      rw [Binary.value_ofNat_single (by omega)] at hScaled
      have hKey := (Format.keyValue_strictMono .single).injective (hEdge.trans hReached.symm)
      have hRounds : (Binary.ofNat .single (⌊x.value * n⌋₊ + 1)).Rounds (x.value * n) :=
        ⟨rfl, hKey.trans hScaled.2⟩
      rw [← hEdge]
      refine hRounds.sub_le_spacingBelow hProduct ?_
      rw [hEdge, Nat.cast_add_one]
      exact Nat.lt_floor_add_one _
  · intro k n hLess hSmall
    refine ⟨Survey.centre_rounds hLess hSmall, fun c hc => ?_⟩
    rw [hBin c (by omega), binOf_of_centre hLess hSmall hc]

/-- Seven tenths, rounded down, among ten bins: the exact product lies below seven, the coordinate
counts to bin seven nevertheless, and one to the last bin.  The centre of bin six stays in it. -/
theorem bin_nearly_floor_seven_tenths :
    ∃ x : Single, x.value = 11744051 / 2 ^ 24 ∧ bin x 10 = .ok 7 ∧ ⌊x.value * 10⌋₊ = 6 ∧
      7 - x.value * 10 ≤ (Binary.ofNat .single 7).spacingBelow / 2 ∧
      (∃ i j, bin x 10 = .ok i ∧ bin Binary.one 10 = .ok j ∧ i ≤ j ∧ j ≤ 9) ∧
      bin (Survey.centre 6 10) 10 = .ok 6 := by
  obtain ⟨hMono, hFloor, hCentre⟩ := bin_nearly_floor
  let x : Single := .ofBits .single 0x3f333333
  have hValue : x.value = 11744051 / 2 ^ 24 := by
    have hKey : x.key = ((125 * Format.single.hidden + 11744051 : Nat) : Int) := by decide
    rw [Binary.value, hKey, Format.keyValue_natCast, Format.codeValue,
      Format.unitsOf_shifted _ _ _ (by decide) (by decide)]
    norm_num [Format.unity_eq, Format.scale]
  have hSix : ⌊x.value * (10 : Nat)⌋₊ = 6 := by
    rw [hValue, Nat.floor_eq_iff (by norm_num)]
    norm_num
  have hSeven : bin x 10 = .ok 7 := by decide +kernel
  obtain ⟨i, hBin, _, hNear⟩ := hFloor x 10 (by decide) (by decide) (by decide +kernel)
    (by decide +kernel)
  obtain rfl := Except.ok.inj (hSeven.symm.trans hBin)
  rw [hSix] at hNear
  obtain ⟨hRounds, hFalls⟩ := hCentre 6 10 (by decide) (by decide)
  exact ⟨x, hValue, hSeven, hSix, hNear (by decide), hMono x Binary.one 10 (by decide) (by decide)
    (by decide +kernel), hFalls _ hRounds⟩

end Bins

end StepSampling
