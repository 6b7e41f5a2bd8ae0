import StepSampling.Binary.Arithmetic
import StepSampling.Proofs.Binary.Value
import Mathlib.Algebra.Order.Floor.Semifield
import Mathlib.Data.Rat.Floor
import Mathlib.Tactic.LinearCombination

/-!
# What the operations compute

Addition, subtraction, multiplication and division of finite numbers round the exact result, and so
does the conversion of a natural number.  The whole part of a number is the floor of its value.

Small multiples of a power of two are values of the format, and operations that end in one are exact.
-/

namespace StepSampling

variable {F : Format}

/-! ## Magnitudes -/

namespace Magnitude

/-- A magnitude is its code. -/
theorem eq_of_code {a b : Magnitude F} (hCode : a.code = b.code) : a = b := by
  cases a
  cases b
  cases hCode
  rfl

theorem code_ofQuotient (num den : Nat) (hDen : 0 < den) :
    (ofQuotient F num den).code = min (F.nearestCode (num / den / F.unity)) F.top := by
  rw [← F.roundQuotient_eq_nearestCode num den hDen]
  rfl

theorem code_ofDyadic (m : Nat) (e : Int) :
    (ofDyadic F m e).code = min (F.nearestCode (m * 2 ^ e / F.unity)) F.top := by
  rw [← F.roundDyadic_eq_nearestCode m e]
  rfl

theorem codeValue_eq (m : Magnitude F) :
    F.codeValue m.code = m.significand * 2 ^ m.shift / F.unity := by
  rw [Format.codeValue, Format.unitsOf, Nat.shiftLeft_eq, Nat.cast_mul, Nat.cast_pow,
    Nat.cast_ofNat]
  rfl

end Magnitude

namespace Binary

/-! ## Signs -/

/-- Whether the number has the negative sign. -/
def negative : Binary F → Bool
  | .nan => false
  | .signed s _ => s

@[simp] theorem value_signed_false (m : Magnitude F) :
    (signed false m).value = F.codeValue m.code := F.keyValue_natCast m.code

@[simp] theorem value_signed_true (m : Magnitude F) :
    (signed true m).value = -F.codeValue m.code := by
  show F.keyValue (-(m.code : Int)) = _
  rw [F.keyValue_neg, F.keyValue_natCast]

theorem key_neg (x : Binary F) : (-x).key = -x.key := by
  match x with
  | .nan => rfl
  | .signed false m => rfl
  | .signed true m => exact (neg_neg (m.code : Int)).symm

@[simp] theorem value_neg (x : Binary F) : (-x).value = -x.value := by
  rw [value, key_neg, F.keyValue_neg, value]

@[simp] theorem isNaN_neg (x : Binary F) : (-x).isNaN = x.isNaN := by
  cases x <;> rfl

@[simp] theorem isFinite_neg (x : Binary F) : (-x).isFinite = x.isFinite := by
  cases x <;> rfl

/-- A sign and a rounded magnitude make a rounded number, if the sign is right for a value that does
not vanish. -/
theorem rounds_signed {s : Bool} {m : Magnitude F} {q : ℚ}
    (hCode : m.code = min (F.nearestCode |q|) F.top)
    (hSign : q ≠ 0 → s = decide (q < 0)) : (signed s m).Rounds q := by
  refine ⟨rfl, ?_⟩
  rcases lt_trichotomy q 0 with hNeg | rfl | hPos
  · rw [hSign hNeg.ne, decide_eq_true hNeg]
    rw [abs_of_neg hNeg] at hCode
    rw [Format.nearestKey, if_pos hNeg, ← hCode]
    rfl
  · have hZero : m.code = 0 := by
      rw [hCode, abs_zero, ← F.codeValue_zero, F.nearestCode_codeValue, Nat.zero_min]
    rw [← F.keyValue_zero, F.nearestKey_keyValue 0 (Nat.zero_le _)]
    cases s <;> simp [key, hZero]
  · rw [hSign hPos.ne', decide_eq_false (not_lt.mpr hPos.le)]
    rw [abs_of_pos hPos] at hCode
    rw [F.nearestKey_of_nonneg hPos.le, ← hCode]
    rfl

/-! ## Sums -/

private theorem aligned_value (s : Bool) (m : Magnitude F) (e : Nat) (hLe : e ≤ m.shift) :
    (aligned s m e : ℚ) * 2 ^ e / F.unity = (signed s m).value := by
  have hCount : ((m.significand <<< (m.shift - e) : Nat) : ℚ) * 2 ^ e =
      m.significand * 2 ^ m.shift := by
    rw [Nat.shiftLeft_eq, Nat.cast_mul, mul_assoc, Nat.cast_pow, Nat.cast_ofNat, ← pow_add,
      Nat.sub_add_cancel hLe]
  cases s with
  | false =>
      rw [value_signed_false, m.codeValue_eq, ← hCount]
      rfl
  | true =>
      rw [value_signed_true, m.codeValue_eq, ← hCount, ← neg_div, ← neg_mul]
      show ((-((m.significand <<< (m.shift - e) : Nat) : Int) : Int) : ℚ) * _ / _ = _
      rw [Int.cast_neg, Int.cast_natCast]

private theorem sum_value (s t : Bool) (a b : Magnitude F) :
    ((aligned s a (min a.shift b.shift) + aligned t b (min a.shift b.shift) : Int) : ℚ) *
        (2 ^ min a.shift b.shift / F.unity) = (signed s a).value + (signed t b).value := by
  rw [← aligned_value s a (min a.shift b.shift) (Nat.min_le_left _ _),
    ← aligned_value t b (min a.shift b.shift) (Nat.min_le_right _ _), Int.cast_add]
  ring

private theorem addFinite_rounds (s t : Bool) (a b : Magnitude F) :
    (addFinite s a t b).Rounds ((signed s a).value + (signed t b).value) := by
  have hSum := sum_value s t a b
  unfold addFinite
  dsimp only
  generalize aligned s a (min a.shift b.shift) + aligned t b (min a.shift b.shift) = sum
    at hSum ⊢
  generalize min a.shift b.shift = e at hSum ⊢
  have hFactor : (0 : ℚ) < 2 ^ e / F.unity := div_pos (by positivity) F.unity_cast_pos
  rw [← hSum]
  apply rounds_signed
  · rw [Magnitude.code_ofDyadic, abs_mul, abs_of_pos hFactor, mul_div_assoc, Nat.cast_natAbs,
      Int.cast_abs, zpow_natCast]
  · intro hNonzero
    have hSum : sum ≠ 0 := by
      rintro rfl
      simp at hNonzero
    rw [if_neg hSum, decide_eq_decide, mul_neg_iff]
    constructor
    · intro hNeg
      exact Or.inr ⟨Int.cast_lt_zero.mpr hNeg, hFactor⟩
    · rintro (⟨_, hFlip⟩ | ⟨hNeg, _⟩)
      · exact absurd hFlip (not_lt.mpr hFactor.le)
      · exact Int.cast_lt_zero.mp hNeg

private theorem negative_addFinite (t : Bool) (a b : Magnitude F)
    (hNonneg : 0 ≤ (signed false a).value + (signed t b).value) :
    (addFinite false a t b).negative = false := by
  rw [← sum_value false t a b] at hNonneg
  unfold addFinite
  dsimp only
  generalize aligned false a (min a.shift b.shift) + aligned t b (min a.shift b.shift) = sum
    at hNonneg ⊢
  have hFactor : (0 : ℚ) < 2 ^ min a.shift b.shift / F.unity :=
    div_pos (by positivity) F.unity_cast_pos
  have hSum : ¬sum < 0 := by
    intro hNeg
    have hCast : (sum : ℚ) < 0 := Int.cast_lt_zero.mpr hNeg
    exact absurd hNonneg (not_le.mpr (mul_neg_of_neg_of_pos hCast hFactor))
  show (if sum = 0 then false && t else decide (sum < 0)) = false
  split
  · rfl
  · exact decide_eq_false hSum

private theorem isInfinite_of_isFinite {s : Bool} {m : Magnitude F}
    (hFinite : (signed s m).isFinite = true) : m.isInfinite = false := by
  simpa [isFinite] using hFinite

/-- A sum of finite numbers is the exact sum, rounded. -/
theorem add_rounds (x y : Binary F) (hx : x.isFinite = true) (hy : y.isFinite = true) :
    (x + y).Rounds (x.value + y.value) := by
  match x, y with
  | .nan, _ => cases hx
  | .signed _ _, .nan => cases hy
  | .signed s a, .signed t b =>
      show (add (.signed s a) (.signed t b)).Rounds _
      rw [add, isInfinite_of_isFinite hx, isInfinite_of_isFinite hy]
      exact addFinite_rounds s t a b

/-- A sum that starts without a sign and does not become negative has none. -/
theorem negative_add (x y : Binary F) (hx : x.isFinite = true) (hy : y.isFinite = true)
    (hSign : x.negative = false) (hNonneg : 0 ≤ x.value + y.value) : (x + y).negative = false := by
  match x, y with
  | .nan, _ => cases hx
  | .signed _ _, .nan => cases hy
  | .signed s a, .signed t b =>
      obtain rfl : s = false := hSign
      show (add (.signed false a) (.signed t b)).negative = false
      rw [add, isInfinite_of_isFinite hx, isInfinite_of_isFinite hy]
      exact negative_addFinite t a b hNonneg

/-- A difference of finite numbers is the exact difference, rounded. -/
theorem sub_rounds (x y : Binary F) (hx : x.isFinite = true) (hy : y.isFinite = true) :
    (x - y).Rounds (x.value - y.value) := by
  rw [sub_eq_add_neg x.value, ← value_neg]
  exact add_rounds x (-y) hx (by rwa [isFinite_neg])

/-- Only two infinities can give NaN. -/
theorem isNaN_sub (x y : Binary F) (hx : x.isNaN = false) (hy : y.isFinite = true) :
    (x - y).isNaN = false := by
  match x, y with
  | .nan, _ => cases hx
  | .signed _ _, .nan => cases hy
  | .signed s a, .signed t b =>
      show (add (.signed s a) (.signed (!t) b)).isNaN = false
      rw [add, isInfinite_of_isFinite hy]
      cases a.isInfinite <;> rfl

/-! ## Products and quotients -/

/-- A rounded magnitude with either sign. -/
theorem rounds_of_nonneg (s : Bool) {m : Magnitude F} {q : ℚ} (hNonneg : 0 ≤ q)
    (hCode : m.code = min (F.nearestCode q) F.top) :
    (signed s m).Rounds (if s then -q else q) := by
  cases s with
  | false =>
      apply rounds_signed
      · rwa [if_neg Bool.false_ne_true, abs_of_nonneg hNonneg]
      · intro _
        rw [if_neg Bool.false_ne_true, decide_eq_false (not_lt.mpr hNonneg)]
  | true =>
      apply rounds_signed
      · rwa [if_pos rfl, abs_neg, abs_of_nonneg hNonneg]
      · rw [if_pos rfl]
        intro hNonzero
        have hPos : 0 < q := lt_of_le_of_ne hNonneg fun h => hNonzero (by rw [← h, neg_zero])
        rw [decide_eq_true (neg_lt_zero.mpr hPos)]

/-- A product of finite numbers is the exact product, rounded. -/
theorem mul_rounds (x y : Binary F) (hx : x.isFinite = true) (hy : y.isFinite = true) :
    (x * y).Rounds (x.value * y.value) := by
  match x, y with
  | .nan, _ => cases hx
  | .signed _ _, .nan => cases hy
  | .signed s a, .signed t b =>
      show (mul (.signed s a) (.signed t b)).Rounds _
      rw [mul, isInfinite_of_isFinite hx, isInfinite_of_isFinite hy]
      have hSigns : (signed s a).value * (signed t b).value =
          if (s != t) then -(F.codeValue a.code * F.codeValue b.code)
          else F.codeValue a.code * F.codeValue b.code := by
        cases s <;> cases t <;> simp
      rw [hSigns]
      apply rounds_of_nonneg
      · exact mul_nonneg (F.codeValue_nonneg _) (F.codeValue_nonneg _)
      · rw [Magnitude.code_ofDyadic, a.codeValue_eq, b.codeValue_eq, zpow_sub₀ two_ne_zero,
          zpow_natCast, zpow_natCast, pow_add, Nat.cast_mul]
        congr 2
        rw [← F.unity_cast]
        ring

/-- A product of finite numbers has the product of their signs. -/
theorem negative_mul (x y : Binary F) (hx : x.isFinite = true) (hy : y.isFinite = true) :
    (x * y).negative = (x.negative != y.negative) := by
  match x, y with
  | .nan, _ => cases hx
  | .signed _ _, .nan => cases hy
  | .signed s a, .signed t b =>
      show (mul (.signed s a) (.signed t b)).negative = _
      rw [mul, isInfinite_of_isFinite hx, isInfinite_of_isFinite hy]
      rfl

theorem isZero_iff (x : Binary F) : x.isZero = true ↔ x.isNaN = false ∧ x.value = 0 := by
  match x with
  | .nan => simp [isZero, isNaN]
  | .signed s m =>
      have hCode : F.codeValue m.code = 0 ↔ m.code = 0 := by
        rw [← F.codeValue_zero, F.codeValue_strictMono.injective.eq_iff]
      cases s <;> simp [isZero, isNaN, Magnitude.isZero, hCode]

private theorem isZero_of_value_ne {s : Bool} {m : Magnitude F}
    (hNonzero : (signed s m).value ≠ 0) : m.isZero = false := by
  by_contra hZero
  exact hNonzero ((isZero_iff (.signed s m)).mp (Bool.not_eq_false _ ▸ hZero)).2

private theorem code_quotient (a b : Magnitude F) (hNonzero : F.codeValue b.code ≠ 0) :
    (quotient a b).code = min (F.nearestCode (F.codeValue a.code / F.codeValue b.code)) F.top := by
  have hb : (b.significand : ℚ) ≠ 0 := by
    rintro hZero
    rw [b.codeValue_eq, hZero, zero_mul, zero_div] at hNonzero
    exact hNonzero rfl
  have hDen : 0 < b.significand <<< (b.shift - (a.shift + F.scale)) := by
    rw [Nat.shiftLeft_eq]
    exact Nat.mul_pos (Nat.pos_of_ne_zero (by exact_mod_cast hb)) (Nat.two_pow_pos _)
  rw [quotient, Magnitude.code_ofQuotient _ _ hDen, a.codeValue_eq, b.codeValue_eq]
  congr 2
  rw [Nat.shiftLeft_eq, Nat.shiftLeft_eq]
  push_cast
  -- one of the two shifts is zero, and the other one makes up for the difference
  have hShifts : (2 : ℚ) ^ (a.shift + F.scale - b.shift) * 2 ^ b.shift =
      2 ^ (b.shift - (a.shift + F.scale)) * (2 ^ F.scale * 2 ^ a.shift) := by
    rw [← pow_add, ← pow_add, ← pow_add]
    congr 1
    omega
  rw [F.unity_cast]
  field_simp
  linear_combination (a.significand : ℚ) * hShifts

/-- A quotient of finite numbers is the exact quotient, rounded. -/
theorem div_rounds (x y : Binary F) (hx : x.isFinite = true) (hy : y.isFinite = true)
    (hNonzero : y.value ≠ 0) : (x / y).Rounds (x.value / y.value) := by
  match x, y with
  | .nan, _ => cases hx
  | .signed _ _, .nan => cases hy
  | .signed s a, .signed t b =>
      show (div (.signed s a) (.signed t b)).Rounds _
      rw [div, isInfinite_of_isFinite hx, isInfinite_of_isFinite hy, isZero_of_value_ne hNonzero]
      have hSigns : (signed s a).value / (signed t b).value =
          if (s != t) then -(F.codeValue a.code / F.codeValue b.code)
          else F.codeValue a.code / F.codeValue b.code := by
        cases s <;> cases t <;> simp [neg_div, div_neg]
      rw [hSigns]
      apply rounds_of_nonneg
      · exact div_nonneg (F.codeValue_nonneg _) (F.codeValue_nonneg _)
      · apply code_quotient
        cases t <;> simpa using hNonzero

/-- A quotient of numbers without sign has none. -/
theorem negative_div (x y : Binary F) (hx : x.negative = false) (hy : y.negative = false) :
    (x / y).negative = false := by
  match x, y with
  | .nan, _ => rfl
  | .signed _ _, .nan => rfl
  | .signed s a, .signed t b =>
      obtain rfl : s = false := hx
      obtain rfl : t = false := hy
      show (div (.signed false a) (.signed false b)).negative = false
      rw [div]
      split
      · split <;> rfl
      · split
        · rfl
        · split
          · split <;> rfl
          · rfl

/-- A quotient by a finite number other than zero is not NaN. -/
theorem isNaN_div (x y : Binary F) (hx : x.isNaN = false) (hy : y.isFinite = true)
    (hNonzero : y.value ≠ 0) : (x / y).isNaN = false := by
  match x, y with
  | .nan, _ => cases hx
  | .signed _ _, .nan => cases hy
  | .signed s a, .signed t b =>
      show (div (.signed s a) (.signed t b)).isNaN = false
      rw [div, isInfinite_of_isFinite hy, isZero_of_value_ne hNonzero]
      cases a.isInfinite <;> rfl

/-! ## Small numbers are exact -/

/-- Small multiples of a power of two are among the units of the codes. -/
theorem exists_unitsOf_eq (F : Format) (m s : Nat) (hSmall : m ≤ 2 * F.hidden) :
    ∃ c, F.unitsOf c = m * 2 ^ s ∧ c ≤ s * F.hidden + 2 * F.hidden := by
  induction s generalizing m with
  | zero => exact ⟨m, by rw [F.unitsOf_of_le m hSmall, Nat.pow_zero, Nat.mul_one], by omega⟩
  | succ s ih =>
      by_cases hNormal : F.hidden ≤ m
      · exact ⟨(s + 1) * F.hidden + m, F.unitsOf_shifted (s + 1) m hNormal hSmall, by omega⟩
      · obtain ⟨c, hUnits, hCode⟩ := ih (2 * m) (by omega)
        refine ⟨c, by rw [hUnits, Nat.pow_succ]; ring, ?_⟩
        rw [Nat.succ_mul]
        omega

/-- Small multiples of a power of two up to the words are values of finite numbers. -/
theorem exists_value_eq (F : Format) (m s : Nat) (hSmall : m ≤ 2 * F.hidden)
    (hShift : s ≤ F.scale + 64) :
    ∃ x : Binary F, x.isFinite = true ∧ x.value = m * 2 ^ s / F.unity := by
  obtain ⟨c, hUnits, hCode⟩ := exists_unitsOf_eq F m s hSmall
  have hTop : c < F.top := by
    have hScale : (F.scale + 64) * F.hidden + 2 * F.hidden < F.top := by cases F <;> decide
    have hLe : s * F.hidden ≤ (F.scale + 64) * F.hidden := Nat.mul_le_mul_right _ hShift
    omega
  refine ⟨.signed false ⟨c, hTop.le⟩, ?_, ?_⟩
  · simp [isFinite, Magnitude.isInfinite, hTop.ne]
  · rw [value_signed_false, Format.codeValue, hUnits, Nat.cast_mul, Nat.cast_pow, Nat.cast_ofNat]

/-- The conversion of a natural number rounds it. -/
theorem ofNat_rounds (n : Nat) : (ofNat F n).Rounds n := by
  apply rounds_signed
  · rw [Magnitude.code_ofDyadic, zpow_natCast, ← F.unity_cast,
      mul_div_cancel_right₀ _ F.unity_cast_pos.ne', abs_of_nonneg (Nat.cast_nonneg n)]
  · intro _
    rw [decide_eq_false (not_lt.mpr (Nat.cast_nonneg n))]

/-- Natural numbers up to twice the weight of the leading bit are converted exactly. -/
theorem value_ofNat (n : Nat) (hSmall : n ≤ 2 * F.hidden) : (ofNat F n).value = n := by
  obtain ⟨x, hFinite, hValue⟩ := exists_value_eq F n F.scale hSmall (Nat.le_add_right _ _)
  rw [← F.unity_cast, mul_div_cancel_right₀ _ F.unity_cast_pos.ne'] at hValue
  have hRounds := ofNat_rounds (F := F) n
  rw [← hValue] at hRounds ⊢
  exact hRounds.value_eq (isNaN_of_isFinite hFinite)

/-- Natural numbers up to `2 ^ 24` are numbers of 32 bits. -/
theorem value_ofNat_single {n : Nat} (hSmall : n ≤ 2 ^ 24) : (ofNat .single n).value = n :=
  value_ofNat n hSmall

theorem value_ofNat_le (n : Nat) (hWord : n ≤ 2 ^ 64) : (ofNat F n).value ≤ 2 ^ 64 := by
  obtain ⟨x, hFinite, hValue⟩ := exists_value_eq F 1 (F.scale + 64)
    (by have hHidden := F.hidden_pos; omega) le_rfl
  rw [pow_add, ← F.unity_cast, Nat.cast_one, one_mul,
    mul_div_cancel_left₀ _ F.unity_cast_pos.ne'] at hValue
  rw [← hValue]
  apply (ofNat_rounds n).value_le (isNaN_of_isFinite hFinite)
  rw [hValue]
  exact_mod_cast hWord

@[simp] theorem value_zero : (zero : Binary F).value = 0 := by
  rw [zero, value_signed_false, Magnitude.zero, F.codeValue_zero]

theorem Rounds.value_nonneg {x : Binary F} {q : ℚ} (hx : x.Rounds q) (hNonneg : 0 ≤ q) :
    0 ≤ x.value := by
  rw [← value_zero (F := F)]
  exact hx.le_value rfl (by rwa [value_zero])

@[simp] theorem value_one : (one : Binary F).value = 1 := by
  rw [one, value_ofNat 1 (by cases F <;> decide), Nat.cast_one]

/-! ## Whole parts -/

private theorem wholePart_eq (m : Magnitude F) : wholePart m = ⌊F.codeValue m.code⌋₊ := by
  rw [wholePart, m.codeValue_eq, F.unity_cast]
  split
  · next hLarge =>
    have hSplit : (2 : ℚ) ^ m.shift = 2 ^ (m.shift - F.scale) * 2 ^ F.scale := by
      rw [← pow_add, Nat.sub_add_cancel hLarge]
    have hWhole : (m.significand : ℚ) * 2 ^ m.shift / 2 ^ F.scale =
        (m.significand * 2 ^ (m.shift - F.scale) : Nat) := by
      rw [hSplit, ← mul_assoc, mul_div_cancel_right₀ _ (by positivity)]
      push_cast
      rfl
    rw [hWhole, Nat.floor_natCast, Nat.shiftLeft_eq]
  · next hSmall =>
    have hSplit : (2 : ℚ) ^ F.scale = 2 ^ (F.scale - m.shift) * 2 ^ m.shift := by
      rw [← pow_add, Nat.sub_add_cancel (by omega)]
    have hQuotient : (m.significand : ℚ) * 2 ^ m.shift / 2 ^ F.scale =
        m.significand / (2 ^ (F.scale - m.shift) : Nat) := by
      rw [hSplit, mul_div_mul_right _ _ (by positivity)]
      push_cast
      rfl
    rw [hQuotient, Nat.floor_div_eq_div, Nat.shiftRight_eq_div_pow]

theorem wordMax_eq : wordMax = 2 ^ 64 - 1 := rfl

/-- The word of a number is the floor of its value, as far as that fits. -/
theorem toWord_eq (x : Binary F) (hNumber : x.isNaN = false) :
    x.toWord = min ⌊x.value⌋₊ wordMax := by
  match x with
  | .nan => cases hNumber
  | .signed true m =>
      have hFloor : ⌊(signed true m).value⌋₊ = 0 := by
        apply Nat.floor_of_nonpos
        rw [value_signed_true]
        exact neg_nonpos.mpr (F.codeValue_nonneg _)
      rw [hFloor, Nat.zero_min]
      rfl
  | .signed false m =>
      rw [value_signed_false]
      show (if m.isInfinite then wordMax else min (wholePart m) wordMax) = _
      split
      · next hInfinite =>
        have hTop : m.code = F.top := by simpa [Magnitude.isInfinite] using hInfinite
        have hFloor : wordMax ≤ ⌊F.codeValue m.code⌋₊ := by
          rw [hTop]
          have hHigh : F.codeValue (F.top - F.hidden) ≤ F.codeValue F.top :=
            F.codeValue_strictMono.monotone (Nat.sub_le _ _)
          apply Nat.le_floor
          refine le_trans ?_ (F.large_le_codeValue.trans hHigh)
          norm_num [wordMax]
        rw [Nat.min_eq_right hFloor]
      · rw [wholePart_eq]

end Binary

end StepSampling
