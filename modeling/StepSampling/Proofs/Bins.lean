import StepSampling.Bins
import StepSampling.Proofs.Binary.Neighbours
import StepSampling.Proofs.Binary.Nonnegative

/-!
# Bins and the walks into them

The bin of a coordinate is read off the rounded product of the coordinate and the number of bins, so
it grows with the coordinate.  Each walk of `confine` stops at the first number on its way that is
not on the wrong side of the bin, and it always gets there: the walks are loops whose condition
comes to fail, and never run out of numbers.  Up to `2 ^ 23` bins, neighbouring numbers below one
lie in the same bin or in neighbouring bins: a walk cannot step over a bin, and every bin is
reached.  Since a walk stops as soon as it may, it is reached at its near end.
-/

namespace StepSampling

namespace Binary

variable {F : Format}

private theorem nearestKey_of_le (q : ℚ) (hLe : F.codeValue F.top ≤ q) :
    F.nearestKey q = F.top := by
  have hLow := F.nearestKey_mono hLe
  rw [← F.keyValue_natCast, F.nearestKey_keyValue _ (Nat.le_refl _)] at hLow
  have hHigh : F.nearestKey q ≤ F.top := by
    unfold Format.nearestKey
    split <;> omega
  omega

/-- Multiplying by a number of at least one rounds the exact product, also for an infinity. -/
theorem mul_rounds_of_one_le (x y : Binary F) (hx : x.isNaN = false) (hy : y.isFinite = true)
    (hOne : 1 ≤ y.value) : (x * y).Rounds (x.value * y.value) := by
  by_cases hFinite : x.isFinite = true
  · exact mul_rounds x y hFinite hy
  · match x, y with
    | .nan, _ => cases hx
    | .signed _ _, .nan => cases hy
    | .signed s ⟨code, hCode⟩, .signed t b =>
        obtain rfl : t = false := negative_of_pos (x := .signed t b) (by linarith)
        obtain rfl : code = F.top := by
          simpa [isFinite, Magnitude.isInfinite] using hFinite
        have hProduct : signed s ⟨F.top, hCode⟩ * signed false b = signed s ⟨F.top, hCode⟩ := by
          have hb : b.isZero = false := by
            by_contra hZero
            have hValue := ((isZero_iff (.signed false b)).mp (Bool.not_eq_false _ ▸ hZero)).2
            linarith
          have hInfinite : (⟨F.top, hCode⟩ : Magnitude F).isInfinite = true :=
            beq_self_eq_true F.top
          have hTop : F.top ≠ 0 := (Nat.zero_lt_of_lt F.hidden_lt_top).ne'
          have hNonzero : (⟨F.top, hCode⟩ : Magnitude F).isZero = false := beq_false_of_ne hTop
          show mul (signed s ⟨F.top, hCode⟩) (signed false b) = _
          rw [mul, hInfinite, hNonzero, hb]
          cases s <;> rfl
        rw [hProduct]
        refine ⟨rfl, ?_⟩
        have hLarge : F.codeValue F.top ≤ F.codeValue F.top * (signed false b).value :=
          le_mul_of_one_le_right (F.codeValue_nonneg _) hOne
        cases s with
        | false =>
            rw [value_signed_false, nearestKey_of_le _ hLarge]
            rfl
        | true =>
            rw [value_signed_true, neg_mul, F.nearestKey_neg, nearestKey_of_le _ hLarge]
            rfl

end Binary

/-- The loop that takes a step as long as a condition holds, started in one state, ends in another.
-/
inductive LoopEnds {α : Type} (goesOn : α → Prop) (step : α → α) : α → α → Prop
  /-- The condition fails. -/
  | stop {x : α} (hStop : ¬goesOn x) : LoopEnds goesOn step x x
  /-- The condition holds, and the loop ends after a step. -/
  | step {x y : α} (hGoesOn : goesOn x) (hRest : LoopEnds goesOn step (step x) y) :
      LoopEnds goesOn step x y

namespace Bins

/-! ## The bin of a coordinate -/

theorem binOf_eq_min (x : Single) (n : Nat) :
    binOf x n = min (x * Binary.ofNat .single n).toWord (n - 1) := by
  unfold binOf clamp
  split
  · omega
  · split <;> omega

theorem binOf_lt (x : Single) {n : Nat} (hPos : 1 ≤ n) : binOf x n < n := by
  rw [binOf_eq_min]
  omega

section

variable {n : Nat} (hPos : 1 ≤ n) (hWord : n < 2 ^ 64)

include hPos hWord

/-- The coordinate is multiplied by the number of bins and rounded. -/
theorem scaled_rounds (x : Single) (hNumber : x.isNaN = false) :
    (x * Binary.ofNat .single n).Rounds (x.value * (Binary.ofNat .single n).value) := by
  obtain ⟨hFinite, hOne⟩ := Binary.count_isFinite n hPos hWord
  exact Binary.mul_rounds_of_one_le x _ hNumber hFinite hOne

/-- A coordinate reaches bin `j` when its product reaches `j`. -/
theorem le_binOf_iff {x : Single} (hNumber : x.isNaN = false) {j : Nat} (hBin : j + 1 ≤ n)
    (hFirst : j ≠ 0) : j ≤ binOf x n ↔ (j : ℚ) ≤ (x * Binary.ofNat .single n).value := by
  have hScaled := scaled_rounds hPos hWord x hNumber
  rw [binOf_eq_min, Binary.toWord_eq _ hScaled.1, ← Nat.le_floor_iff' hFirst]
  have hMax : n - 1 ≤ Binary.wordMax := by
    rw [Binary.wordMax_eq]
    omega
  omega

theorem binOf_mono {x y : Single} (hx : x.isNaN = false) (hy : y.isNaN = false)
    (hLe : x.value ≤ y.value) : binOf x n ≤ binOf y n := by
  obtain ⟨_, hOne⟩ := Binary.count_isFinite n hPos hWord
  have hxScaled := scaled_rounds hPos hWord x hx
  have hyScaled := scaled_rounds hPos hWord y hy
  have hProduct : (x * Binary.ofNat .single n).value ≤ (y * Binary.ofNat .single n).value :=
    hxScaled.value_mono hyScaled (mul_le_mul_of_nonneg_right hLe (by linarith))
  rw [binOf_eq_min, binOf_eq_min, Binary.toWord_eq _ hxScaled.1, Binary.toWord_eq _ hyScaled.1]
  have hFloor := Nat.floor_mono hProduct
  omega

theorem binOf_mono_key {x y : Single} (hx : x.isNaN = false) (hy : y.isNaN = false)
    (hLe : x.key ≤ y.key) : binOf x n ≤ binOf y n :=
  binOf_mono hPos hWord hx hy (Binary.value_le_iff_key.mpr hLe)

/-- Coordinates up to zero lie in the first bin. -/
theorem binOf_of_nonpos {x : Single} (hNumber : x.isNaN = false) (hLe : x.value ≤ 0) :
    binOf x n = 0 := by
  have hScaled := scaled_rounds hPos hWord x hNumber
  have hProduct : (x * Binary.ofNat .single n).value ≤ (Binary.zero : Single).value := by
    apply hScaled.value_le rfl
    obtain ⟨_, hOne⟩ := Binary.count_isFinite n hPos hWord
    rw [Binary.value_zero]
    exact mul_nonpos_of_nonpos_of_nonneg hLe (by linarith)
  rw [Binary.value_zero] at hProduct
  rw [binOf_eq_min, Binary.toWord_eq _ hScaled.1, Nat.floor_of_nonpos hProduct]
  omega

/-- Coordinates beyond every word lie in the last bin. -/
theorem binOf_of_large {x : Single} (hNumber : x.isNaN = false) (hLarge : 2 ^ 64 ≤ x.value) :
    binOf x n = n - 1 := by
  have hScaled := scaled_rounds hPos hWord x hNumber
  have hProduct : x.value ≤ (x * Binary.ofNat .single n).value := by
    apply hScaled.le_value hNumber
    obtain ⟨_, hOne⟩ := Binary.count_isFinite n hPos hWord
    exact le_mul_of_one_le_right (by linarith) hOne
  have hFloor : 2 ^ 64 ≤ ⌊(x * Binary.ofNat .single n).value⌋₊ := by
    apply Nat.le_floor
    push_cast
    linarith
  rw [binOf_eq_min, Binary.toWord_eq _ hScaled.1]
  have hMax : n - 1 ≤ Binary.wordMax := by
    rw [Binary.wordMax_eq]
    omega
  rw [Binary.wordMax_eq] at hMax ⊢
  omega

end

/-! ## The walks -/

/-- Where the walk down and the walk up lead from a number. -/
def walk (k n : Nat) (x : Single) : Single := raise k n (lower k n x)

/-- A number other than NaN is confined by walking into the bin. -/
theorem confine_eq_walk {x : Single} {k n : Nat} (hBin : k < n) (hNumber : x.isNaN = false) :
    confine x k n = .ok (walk k n x) := by
  rw [confine, hNumber, if_neg Bool.false_ne_true, if_neg (by omega), walk]

/-- A number that is not above the bin is not moved down. -/
theorem lower_of_le {x : Single} {k n : Nat} (hLe : binOf x n ≤ k) : lower k n x = x := by
  rw [lower, if_neg (by omega)]

/-- A number that is not below the bin is not moved up. -/
theorem raise_of_le {x : Single} {k n : Nat} (hLe : k ≤ binOf x n) : raise k n x = x := by
  rw [raise, if_neg (by omega)]

/-- Two loops lead from a number to another: steps down while the number lies above bin `k` of `n`,
then steps up while it lies below.  Both end. -/
def WalksInto (k n : Nat) (x y : Single) : Prop :=
  ∃ z, LoopEnds (fun a => k < binOf a n) Binary.down x z ∧
    LoopEnds (fun a => binOf a n < k) Binary.up z y

section

variable {n k : Nat} (hPos : 1 ≤ n) (hWord : n < 2 ^ 64)

include hPos hWord

/-- The walk down stops at the first number that is not above bin `k`. -/
theorem lower_spec (x : Single) (hNumber : x.isNaN = false) :
    (lower k n x).isNaN = false ∧ (lower k n x).key ≤ x.key ∧ binOf (lower k n x) n ≤ k ∧
      ∀ z : Single, z.isNaN = false → (lower k n x).key < z.key → z.key ≤ x.key →
        k < binOf z n := by
  fun_induction lower k n x with
  | case1 x hAbove hMoves ih =>
      obtain ⟨hResult, hLe, hBin, hPassed⟩ := ih (by rw [Binary.isNaN_down]; exact hNumber)
      refine ⟨hResult, by omega, hBin, ?_⟩
      intro z hz hLow hHigh
      by_cases hSame : z.key = x.key
      · exact Nat.lt_of_lt_of_le hAbove (binOf_mono_key hPos hWord hNumber hz hSame.ge)
      · have hDown := Binary.key_down x hNumber
        exact hPassed z hz hLow (by omega)
  | case2 x hAbove hStuck =>
      -- only negative infinity has no number below, and it lies in the first bin
      have hDown := Binary.key_down x hNumber
      have hBottom := Binary.neg_top_le_key x
      have hTop := Format.hidden_lt_top .single
      have hNegative : x.value ≤ 0 := Binary.key_nonpos_iff.mp (by omega)
      rw [binOf_of_nonpos hPos hWord hNumber hNegative] at hAbove
      omega
  | case3 x hInside =>
      refine ⟨hNumber, Int.le_refl _, by omega, ?_⟩
      intro z _ hLow hHigh
      omega

/-- Zero lies in the first bin, so the walk down does not pass it. -/
theorem value_lower_nonneg {x : Single} (hNumber : x.isNaN = false) (hLow : 0 ≤ x.value) :
    0 ≤ (lower k n x).value := by
  obtain ⟨_, _, _, hPassed⟩ := lower_spec (k := k) hPos hWord x hNumber
  have hKey := Binary.key_nonneg_iff.mpr hLow
  have hZero : (Binary.zero : Single).key = 0 := rfl
  apply Binary.key_nonneg_iff.mp
  by_contra hNegative
  have hAbove := hPassed Binary.zero rfl (by omega) (by omega)
  rw [binOf_of_nonpos hPos hWord rfl (by rw [Binary.value_zero])] at hAbove
  omega

/-- The walk up stops at the first number that is not below bin `k`. -/
theorem raise_spec (hBin : k < n) (x : Single) (hNumber : x.isNaN = false) :
    (raise k n x).isNaN = false ∧ x.key ≤ (raise k n x).key ∧ k ≤ binOf (raise k n x) n ∧
      ∀ z : Single, z.isNaN = false → x.key ≤ z.key → z.key < (raise k n x).key →
        binOf z n < k := by
  fun_induction raise k n x with
  | case1 x hBelow hMoves ih =>
      obtain ⟨hResult, hLe, hReached, hPassed⟩ := ih (by rw [Binary.isNaN_up]; exact hNumber)
      refine ⟨hResult, by omega, hReached, ?_⟩
      intro z hz hLow hHigh
      by_cases hSame : z.key = x.key
      · exact Nat.lt_of_le_of_lt (binOf_mono_key hPos hWord hz hNumber hSame.le) hBelow
      · have hUp := Binary.key_up x hNumber
        exact hPassed z hz (by omega) hHigh
  | case2 x hBelow hStuck =>
      -- only positive infinity has no number above, and it lies in the last bin
      have hUp := Binary.key_up x hNumber
      have hLarge : 2 ^ 64 ≤ x.value := by
        have hPow : (2 : ℚ) ^ 64 ≤ 2 ^ 100 := by norm_num
        refine hPow.trans ((Format.large_le_codeValue .single).trans ?_)
        rw [Binary.value, ← Format.keyValue_natCast]
        exact (Format.keyValue_strictMono .single).monotone (by omega)
      rw [binOf_of_large hPos hWord hNumber hLarge] at hBelow
      omega
  | case3 x hInside =>
      refine ⟨hNumber, Int.le_refl _, by omega, ?_⟩
      intro z _ hLow hHigh
      omega

/-- The walk down is a loop that ends because the number is no longer above bin `k`. -/
theorem lower_loopEnds (x : Single) (hNumber : x.isNaN = false) :
    LoopEnds (fun z => k < binOf z n) Binary.down x (lower k n x) := by
  fun_induction lower k n x with
  | case1 x hAbove _ ih => exact .step hAbove (ih (by rw [Binary.isNaN_down]; exact hNumber))
  | case2 x hAbove hStuck =>
      obtain ⟨_, _, hBin, _⟩ := lower_spec (k := k) hPos hWord x hNumber
      rw [lower, if_pos hAbove, if_neg hStuck] at hBin
      omega
  | case3 x hInside => exact .stop hInside

/-- The walk up is a loop that ends because the number is no longer below bin `k`. -/
theorem raise_loopEnds (hBin : k < n) (x : Single) (hNumber : x.isNaN = false) :
    LoopEnds (fun z => binOf z n < k) Binary.up x (raise k n x) := by
  fun_induction raise k n x with
  | case1 x hBelow _ ih => exact .step hBelow (ih (by rw [Binary.isNaN_up]; exact hNumber))
  | case2 x hBelow hStuck =>
      obtain ⟨_, _, hReached, _⟩ := raise_spec hPos hWord hBin x hNumber
      rw [raise, if_pos hBelow, if_neg hStuck] at hReached
      omega
  | case3 x hInside => exact .stop hInside

/-- Confining a number comes to an end, whatever the number of bins. -/
theorem confine_terminates (hBin : k < n) {x : Single} (hNumber : x.isNaN = false) :
    ∃ y, confine x k n = .ok y ∧ WalksInto k n x y := by
  obtain ⟨hLower, _, _, _⟩ := lower_spec (k := k) hPos hWord x hNumber
  exact ⟨walk k n x, confine_eq_walk hBin hNumber, lower k n x,
    lower_loopEnds hPos hWord x hNumber, raise_loopEnds hPos hWord hBin _ hLower⟩

/-- Walks keep the order: a walk into a later bin ends no lower, and neither does one into the same
bin from a larger number.  Bins that no number falls into are no exception. -/
theorem walk_mono {l : Nat} {x y : Single} (hBins : k ≤ l) (hBin : l < n) (hx : x.isNaN = false)
    (hy : y.isNaN = false) (hSame : k = l → x ≤ y) : walk k n x ≤ walk l n y := by
  obtain ⟨hp, hpLe, hpBin, _⟩ := lower_spec (k := k) hPos hWord x hx
  obtain ⟨ha, _, _, haPassed⟩ := raise_spec hPos hWord (by omega : k < n) (lower k n x) hp
  obtain ⟨hq, _, _, hqPassed⟩ := lower_spec (k := l) hPos hWord y hy
  obtain ⟨hb, hbLe, hbBin, _⟩ := raise_spec hPos hWord hBin (lower l n y) hq
  unfold walk
  generalize lower k n x = p at hp hpLe hpBin ha haPassed ⊢
  generalize raise k n p = a at ha haPassed ⊢
  generalize lower l n y = q at hq hqPassed hb hbLe hbBin ⊢
  generalize raise l n q = b at hb hbLe hbBin ⊢
  refine ⟨ha, hb, ?_⟩
  by_contra hBelow
  -- the second walk ends in bin `l` or above, so the first one has not passed its end going up
  have hUnder : b.key < p.key := by
    by_contra hAbove
    have hPassed := haPassed b hb (by omega) (by omega)
    omega
  have hMono := binOf_mono_key hPos hWord hb hp hUnder.le
  -- then both bins are the same, and the second walk has passed the first one going down
  have hKey := (hSame (by omega)).2.2
  have hPassed := hqPassed p hp (by omega) (by omega)
  omega

end

/-! ## No bin is stepped over -/

/-- Below one, neighbours are at most `2 ^ (-24)` apart. -/
theorem value_up_le {x : Single} (hNumber : x.isNaN = false) (hLow : 0 ≤ x.value)
    (hHigh : x.value < 1) : x.up.value ≤ x.value + 1 / 2 ^ 24 := by
  obtain ⟨c, hCode, hValue⟩ := Binary.exists_code hLow
  have hOne : (Binary.one : Single).key = 0x3f800000 := by decide
  have hLess : c < 0x3f800000 := by
    rw [← Binary.value_one (F := .single), Binary.value_lt_iff_key, hOne, hCode] at hHigh
    omega
  have hTop : Format.single.top = 0x7f800000 := rfl
  have hShift : Format.single.shiftOf c ≤ 125 := by
    unfold Format.shiftOf
    show c / 0x800000 - 1 ≤ 125
    omega
  have hPow : (2 : ℚ) ^ Format.single.shiftOf c ≤ 2 ^ 125 := pow_le_pow_right₀ one_le_two hShift
  rw [Binary.value_up_of_key hNumber hCode (by omega), hValue, Format.codeValue_succ,
    Format.unity_cast, add_le_add_iff_left, div_le_iff₀ (by positivity)]
  exact hPow.trans (by norm_num [Format.scale])

/-- A coordinate that falls below bin `j` lies below the lower edge of that bin. -/
theorem mul_lt_of_binOf_lt {n : Nat} (hPos : 1 ≤ n) (hSmall : n ≤ 2 ^ 24) {x : Single}
    (hNumber : x.isNaN = false) {j : Nat} (hBin : j < n) (hBelow : binOf x n < j) :
    x.value * n < j := by
  have hWord : n < 2 ^ 64 := by omega
  have hScaled := scaled_rounds hPos hWord x hNumber
  rw [Binary.value_ofNat_single hSmall] at hScaled
  by_contra hNot
  have hExact := Binary.value_ofNat_single (n := j) (by omega)
  have hReached : (j : ℚ) ≤ (x * Binary.ofNat .single n).value := by
    rw [← hExact]
    exact hScaled.le_value rfl (by rw [hExact]; exact not_lt.mp hNot)
  have hContra := (le_binOf_iff hPos hWord hNumber (by omega) (by omega)).mpr hReached
  omega

section

variable {n : Nat} (hPos : 1 ≤ n) (hSmall : n ≤ 2 ^ 23)

include hPos hSmall

/-- Neighbours below one lie in the same bin or in neighbouring bins. -/
theorem binOf_up_le {x : Single} (hNumber : x.isNaN = false) (hHigh : x.value < 1) :
    binOf x.up n ≤ binOf x n + 1 := by
  have hWord : n < 2 ^ 64 := by omega
  have hUpNumber : x.up.isNaN = false := by rw [Binary.isNaN_up]; exact hNumber
  rcases lt_or_ge x.value 0 with hNegative | hLow
  · have hUp : x.up.value ≤ 0 := by
      rw [← not_le, ← Binary.key_nonneg_iff] at hNegative
      rw [← Binary.key_nonpos_iff, Binary.key_up x hNumber]
      omega
    rw [binOf_of_nonpos hPos hWord hUpNumber hUp]
    omega
  · have hBin := binOf_lt x hPos
    have hUpBin := binOf_lt x.up hPos
    by_contra hSkipped
    generalize hj : binOf x n + 1 = j at hSkipped
    have hUpScaled := scaled_rounds hPos hWord x.up hUpNumber
    have hCount : (n : ℚ) ≤ 2 ^ 23 := by exact_mod_cast hSmall
    rw [Binary.value_ofNat_single (by omega)] at hUpScaled
    -- the product of `x` stays below `j`, hence that of its neighbour below `j + 1 / 2`
    have hBefore : x.value * n < j :=
      mul_lt_of_binOf_lt hPos (by omega) hNumber (by omega) (by omega)
    have hStep : x.up.value * n ≤ j + 1 / 2 := by
      have hUp := value_up_le hNumber hLow hHigh
      have hNonneg : (0 : ℚ) ≤ n := Nat.cast_nonneg n
      nlinarith
    -- and `j + 1 / 2` is a number, so rounding does not cross it
    obtain ⟨half, hFinite, hHalf⟩ := Binary.exists_value_eq .single (2 * j + 1) 148
      (by simp only [Format.hidden]; omega) (by decide)
    have hMiddle : half.value = j + 1 / 2 := by
      rw [hHalf, Format.unity_cast]
      push_cast [Format.scale]
      ring
    have hAfter : (x.up * Binary.ofNat .single n).value ≤ j + 1 / 2 := by
      rw [← hMiddle]
      exact hUpScaled.value_le (Binary.isNaN_of_isFinite hFinite) (by rw [hMiddle]; exact hStep)
    have hReached := (le_binOf_iff hPos hWord hUpNumber (j := j + 1) (by omega) (by omega)).mp
      (by omega)
    push_cast at hReached
    linarith

/-- The greatest number below one lies in the last bin. -/
theorem binOf_belowOne : binOf Single.belowOne n = n - 1 := by
  have hWord : n < 2 ^ 64 := by omega
  have hBin := binOf_lt Single.belowOne hPos
  by_cases hFirst : n = 1
  · omega
  · have hScaled := scaled_rounds hPos hWord Single.belowOne rfl
    rw [Binary.value_ofNat_single (by omega), Single.value_belowOne] at hScaled
    have hExact := Binary.value_ofNat_single (n := n - 1) (by omega)
    have hCount : (n : ℚ) ≤ 2 ^ 23 := by exact_mod_cast hSmall
    have hReached : ((n - 1 : Nat) : ℚ) ≤ (Single.belowOne * Binary.ofNat .single n).value := by
      rw [← hExact]
      apply hScaled.le_value rfl
      rw [hExact, Nat.cast_sub hPos, Nat.cast_one]
      nlinarith
    have hLast := (le_binOf_iff hPos hWord (x := Single.belowOne) rfl (by omega) (by omega)).mpr
      hReached
    omega

/-- Up to `2 ^ 23` bins, every number can be moved into every bin. -/
theorem binOf_raise_lower {k : Nat} (hBin : k < n) (x : Single) (hNumber : x.isNaN = false) :
    binOf (raise k n (lower k n x)) n = k := by
  have hWord : n < 2 ^ 64 := by omega
  obtain ⟨hLower, _, hNotAbove, _⟩ := lower_spec (k := k) hPos hWord x hNumber
  generalize lower k n x = y at hLower hNotAbove ⊢
  obtain ⟨hRaise, hLe, hNotBelow, hPassed⟩ := raise_spec hPos hWord hBin y hLower
  generalize raise k n y = z at hRaise hLe hNotBelow hPassed ⊢
  by_cases hStayed : z.key ≤ y.key
  · have hMono := binOf_mono_key hPos hWord hRaise hLower hStayed
    omega
  · -- the number just below `z` was passed: it lies below bin `k`, and hence below one
    have hDown := Binary.key_down z hRaise
    have hTop := Binary.key_le_top z
    have hBottom := Binary.neg_top_le_key y
    have hBefore : z.down.isNaN = false := by rw [Binary.isNaN_down]; exact hRaise
    have hPrevious := hPassed z.down hBefore (by omega) (by omega)
    have hBelowOne : z.down.value < 1 := by
      by_contra hNot
      have hValue : Single.belowOne.value ≤ z.down.value := by
        rw [Single.value_belowOne]
        have hOne : (1 : ℚ) ≤ z.down.value := not_lt.mp hNot
        linarith [show (0 : ℚ) ≤ 1 / 2 ^ 24 by positivity]
      have hMono := binOf_mono hPos hWord (x := Single.belowOne) rfl hBefore hValue
      rw [binOf_belowOne hPos hSmall] at hMono
      omega
    have hStep := binOf_up_le hPos hSmall hBefore hBelowOne
    have hUp : z.down.up.key = z.key := Binary.key_up_down hRaise (by omega)
    have hMono := binOf_mono_key hPos hWord hRaise (by rw [Binary.isNaN_up]; exact hBefore) hUp.ge
    omega

/-- A coordinate between zero and the greatest number below one is moved into any bin without
leaving the unit interval. -/
theorem confine_eq_ok {k : Nat} (hBin : k < n) {x : Single} (hNumber : x.isNaN = false)
    (hLow : 0 ≤ x.value) (hHigh : x.value ≤ Single.belowOne.value) :
    ∃ y, confine x k n = .ok y ∧ y.isNaN = false ∧ 0 ≤ y.value ∧ y.value < 1 ∧
      binOf y n = k := by
  have hWord : n < 2 ^ 64 := by omega
  have hLanded := binOf_raise_lower hPos hSmall hBin x hNumber
  obtain ⟨hLower, hLe, _, _⟩ := lower_spec (k := k) hPos hWord x hNumber
  obtain ⟨hRaise, hGe, _, hPassedUp⟩ := raise_spec hPos hWord hBin (lower k n x) hLower
  have hBelow : x.key ≤ Single.belowOne.key := Binary.value_le_iff_key.mp hHigh
  refine ⟨raise k n (lower k n x), confine_eq_walk hBin hNumber, hRaise, ?_, ?_, hLanded⟩
  · exact (value_lower_nonneg hPos hWord hNumber hLow).trans (Binary.value_le_iff_key.mpr hGe)
  · -- the greatest number below one lies in the last bin, so the walk up does not pass it
    by_contra hNot
    have hOne : (Binary.one : Single).key ≤ (raise k n (lower k n x)).key := by
      rw [← Binary.value_le_iff_key, Binary.value_one]
      exact not_lt.mp hNot
    have hKeys := Single.key_belowOne
    have hPassed := hPassedUp Single.belowOne rfl (by omega) (by omega)
    rw [binOf_belowOne hPos hSmall] at hPassed
    omega

end

/-! ## The nearest number of a bin -/

section

variable {n k : Nat} (hPos : 1 ≤ n) (hWord : n < 2 ^ 64)

include hPos hWord

/-- From above, the walk down ends at the greatest number that is not above bin `k`. -/
theorem le_lower {x z : Single} (hNumber : x.isNaN = false) (hAbove : k < binOf x n)
    (hz : z.isNaN = false) (hBin : binOf z n ≤ k) : z ≤ lower k n x := by
  obtain ⟨hLower, _, _, hPassed⟩ := lower_spec (k := k) hPos hWord x hNumber
  refine ⟨hz, hLower, ?_⟩
  by_contra hHigher
  by_cases hInside : z.key ≤ x.key
  · have hBeyond := hPassed z hz (by omega) hInside
    omega
  · have hMono := binOf_mono_key hPos hWord hNumber hz (by omega)
    omega

/-- From below, the walk up ends at the least number that is not below bin `k`. -/
theorem raise_le (hLess : k < n) {x z : Single} (hNumber : x.isNaN = false) (hBelow : binOf x n < k)
    (hz : z.isNaN = false) (hBin : k ≤ binOf z n) : raise k n x ≤ z := by
  obtain ⟨hRaise, _, _, hPassed⟩ := raise_spec hPos hWord hLess x hNumber
  refine ⟨hRaise, hz, ?_⟩
  by_contra hLower
  by_cases hInside : x.key ≤ z.key
  · have hBeyond := hPassed z hz hInside (by omega)
    omega
  · have hMono := binOf_mono_key hPos hWord hz hNumber (by omega)
    omega

end

/-- **Confining ends in the nearest number of the bin.**  A number other than NaN is confined to any of
the bins, however many there are: both walks end, in a number.  Up to `2 ^ 23` bins that number falls
into the wanted bin.  It is the number itself if it already lies there, the greatest number of the bin
if it lies above, and the least one if it lies below. -/
theorem confine_nearest (x : Single) (k n : Nat) (hNumber : x.isNaN = false) (hBin : k < n)
    (hWord : n < 2 ^ 64) :
    ∃ r, confine x k n = .ok r ∧ WalksInto k n x r ∧ r.isNaN = false ∧
      (n ≤ 2 ^ 23 → bin r n = .ok k ∧ (binOf x n = k → r = x) ∧
        (k < binOf x n → ∀ z : Single, z.isNaN = false → binOf z n = k → z ≤ r) ∧
        (binOf x n < k → ∀ z : Single, z.isNaN = false → binOf z n = k → r ≤ z)) := by
  have hPos : 1 ≤ n := by omega
  obtain ⟨hLower, _, hNotAbove, _⟩ := lower_spec (k := k) hPos hWord x hNumber
  obtain ⟨hRaise, hUp, _, _⟩ := raise_spec hPos hWord hBin (lower k n x) hLower
  refine ⟨walk k n x, confine_eq_walk hBin hNumber, ⟨lower k n x, lower_loopEnds hPos hWord x hNumber,
    raise_loopEnds hPos hWord hBin _ hLower⟩, hRaise, ?_⟩
  intro hSmall
  have hLanded : binOf (walk k n x) n = k := binOf_raise_lower hPos hSmall hBin x hNumber
  refine ⟨by rw [bin, if_neg (by omega), hLanded], ?_, ?_, ?_⟩
  · intro hInside
    rw [walk, lower_of_le hInside.le, raise_of_le hInside.ge]
  · intro hAbove z hz hzBin
    exact Binary.le_trans (le_lower hPos hWord hNumber hAbove hz hzBin.le) ⟨hLower, hRaise, hUp⟩
  · intro hBelow z hz hzBin
    rw [walk, lower_of_le hBelow.le]
    exact raise_le hPos hWord hBin hNumber hBelow hz hzBin.ge

/-- Infinity is confined to the greatest number of the second of three bins. -/
theorem confine_nearest_infinity :
    ∃ r, confine Binary.infinity 1 3 = .ok r ∧ bin r 3 = .ok 1 ∧ binOf Binary.infinity 3 = 2 ∧
      ∀ z : Single, z.isNaN = false → binOf z 3 = 1 → z ≤ r := by
  have hLast : binOf Binary.infinity 3 = 2 := by decide
  obtain ⟨r, hConfined, _, _, hNearest⟩ :=
    confine_nearest Binary.infinity 1 3 rfl (by decide) (by decide)
  obtain ⟨hFalls, _, hGreatest, _⟩ := hNearest (by decide)
  exact ⟨r, hConfined, hFalls, hLast, hGreatest (by rw [hLast]; decide)⟩

end Bins

end StepSampling
