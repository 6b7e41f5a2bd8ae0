import StepSampling.Binary.Basic
import StepSampling.Proofs.Binary.Codes
import Mathlib.Algebra.Order.Field.Rat
import Mathlib.Data.Int.ConditionallyCompleteOrder
import Mathlib.Data.Rat.Lemmas
import Mathlib.Tactic.FieldSimp
import Mathlib.Tactic.Linarith
import Mathlib.Tactic.Positivity

/-!
# Exact values and rounding

Every number other than NaN has an exact rational value, and the keys order the numbers as these
values do.  Infinity gets the value that the next code would have in a format without an upper limit,
so that the order needs no exception for it.

`Binary.Rounds x q` says that the number `x` is the rational `q` rounded to the format.  What an
operation does is stated by this relation, and three facts about it carry the rest of the theory:
rounding is monotone, it does not move the value of a number, and its error is at most half the
spacing of the numbers around.
-/

namespace StepSampling

namespace Format

variable (F : Format)

/-! ## Values of codes -/

/-- The exact value of a code. -/
def codeValue (c : Nat) : ℚ := F.unitsOf c / F.unity

/-- The least positive value that is not subnormal. -/
def leastNormal : ℚ := F.hidden / F.unity

theorem unity_cast : (F.unity : ℚ) = 2 ^ F.scale := by
  rw [F.unity_eq, Nat.cast_pow, Nat.cast_ofNat]

theorem unity_cast_pos : (0 : ℚ) < F.unity := Nat.cast_pos.mpr F.unity_pos

theorem hidden_cast_pos : (0 : ℚ) < F.hidden := Nat.cast_pos.mpr F.hidden_pos

@[simp] theorem codeValue_zero : F.codeValue 0 = 0 := by
  rw [codeValue, F.unitsOf_of_le 0 (Nat.zero_le _), Nat.cast_zero, zero_div]

theorem codeValue_strictMono : StrictMono F.codeValue := by
  intro c d hLt
  exact div_lt_div_of_pos_right (Nat.cast_lt.mpr (F.unitsOf_strictMono hLt)) F.unity_cast_pos

theorem codeValue_nonneg (c : Nat) : 0 ≤ F.codeValue c :=
  div_nonneg (Nat.cast_nonneg _) F.unity_cast_pos.le

theorem codeValue_succ (c : Nat) :
    F.codeValue (c + 1) = F.codeValue c + 2 ^ F.shiftOf c / F.unity := by
  rw [codeValue, codeValue, unitsOf_succ, Nat.cast_add, add_div, Nat.cast_pow, Nat.cast_ofNat]

/-- The spacing above a code is at most its value over the weight of the leading bit; for subnormal
codes it is that of the least normal value. -/
theorem spacing_le (c : Nat) :
    (2 : ℚ) ^ F.shiftOf c / F.unity ≤ max (F.codeValue c) F.leastNormal / F.hidden := by
  have hUnits : F.hidden * 2 ^ F.shiftOf c ≤ max (F.unitsOf c) F.hidden := by
    by_cases hSub : c < F.hidden
    · rw [shiftOf, Nat.div_eq_of_lt hSub, Nat.zero_sub, Nat.pow_zero, Nat.mul_one]
      exact Nat.le_max_right _ _
    · obtain ⟨m, hLow, hHigh, hCode⟩ := F.exists_significand c (by omega)
      refine Nat.le_trans ?_ (Nat.le_max_left _ _)
      generalize F.shiftOf c = s at hCode ⊢
      rw [hCode, F.unitsOf_shifted s m hLow (by omega)]
      exact Nat.mul_le_mul_right _ hLow
  have hCast : (F.hidden : ℚ) * 2 ^ F.shiftOf c ≤ max (F.unitsOf c : ℚ) F.hidden := by
    exact_mod_cast hUnits
  rw [codeValue, leastNormal, max_div_div_right F.unity_cast_pos.le, div_div,
    div_le_div_iff₀ F.unity_cast_pos (mul_pos F.unity_cast_pos F.hidden_cast_pos)]
  nlinarith [F.unity_cast_pos]

theorem leastNormal_lt_one : F.leastNormal < 1 := by
  rw [leastNormal, div_lt_one F.unity_cast_pos, Nat.cast_lt, F.unity_eq, F.hidden_eq]
  exact Nat.pow_lt_pow_right (by decide) (by cases F <;> decide)

/-- A value is at most twice the weight of the leading bit, counted in spacings below it. -/
theorem codeValue_succ_le (c : Nat) :
    F.codeValue (c + 1) ≤ 2 * F.hidden * (2 ^ F.shiftOf c / F.unity) := by
  have hUnits : F.unitsOf (c + 1) ≤ 2 * F.hidden * 2 ^ F.shiftOf c := by
    by_cases hSub : c < F.hidden
    · rw [F.unitsOf_of_le (c + 1) (by omega)]
      have hPow := Nat.le_mul_of_pos_right (2 * F.hidden) (Nat.two_pow_pos (F.shiftOf c))
      omega
    · obtain ⟨m, hLow, hHigh, hCode⟩ := F.exists_significand c (by omega)
      generalize F.shiftOf c = s at hCode ⊢
      rw [hCode, Nat.add_assoc, F.unitsOf_shifted s (m + 1) (by omega) (by omega)]
      exact Nat.mul_le_mul_right _ (by omega)
  have hCast : (F.unitsOf (c + 1) : ℚ) ≤ 2 * F.hidden * 2 ^ F.shiftOf c := by exact_mod_cast hUnits
  rw [codeValue, ← mul_div_assoc]
  exact div_le_div_of_nonneg_right hCast F.unity_cast_pos.le

/-- The finite numbers reach far beyond the 64-bit words. -/
theorem large_le_codeValue : (2 : ℚ) ^ 100 ≤ F.codeValue (F.top - F.hidden) := by
  have hTop : F.top - F.hidden = (2 ^ F.exponentBits - 3) * F.hidden + F.hidden := by
    cases F <;> decide
  have hShift : 100 + F.scale ≤ 2 ^ F.exponentBits - 3 := by cases F <;> decide
  rw [hTop, codeValue, F.unitsOf_shifted _ _ (Nat.le_refl _) (by omega),
    le_div_iff₀ F.unity_cast_pos, unity_cast, ← pow_add, Nat.cast_mul, Nat.cast_pow, Nat.cast_ofNat]
  have hPow : (2 : ℚ) ^ (100 + F.scale) ≤ 2 ^ (2 ^ F.exponentBits - 3) :=
    pow_le_pow_right₀ one_le_two hShift
  have hHidden : (1 : ℚ) ≤ F.hidden := Nat.one_le_cast.mpr F.hidden_pos
  exact hPow.trans (le_mul_of_one_le_left (by positivity) hHidden)

/-! ## The nearest code -/

/-- The code nearest to a rational that is not negative, a half going to the even code, in a format
without an upper limit. -/
def nearestCode (q : ℚ) : Nat :=
  F.roundQuotient (q * F.unity).num.toNat (q * F.unity).den

/-- The thresholds of rounding a quotient of units, in terms of values. -/
theorem lt_roundQuotient_iff_value (num den c : Nat) (hDen : 0 < den) :
    c < F.roundQuotient num den ↔
      F.codeValue c + F.codeValue (c + 1) < 2 * (num / den / F.unity : ℚ) ∨
        (F.codeValue c + F.codeValue (c + 1) = 2 * (num / den / F.unity : ℚ) ∧ c % 2 = 1) := by
  have hUnity := F.unity_cast_pos
  have hDenCast : (0 : ℚ) < den := Nat.cast_pos.mpr hDen
  have hFactor : (0 : ℚ) < den * F.unity := mul_pos hDenCast hUnity
  have hLeft : (F.codeValue c + F.codeValue (c + 1)) * (den * F.unity) =
      ((F.unitsOf c + F.unitsOf (c + 1)) * den : Nat) := by
    rw [codeValue, codeValue]
    push_cast
    field_simp
  have hRight : 2 * (num / den / F.unity : ℚ) * (den * F.unity) = (2 * num : Nat) := by
    push_cast
    field_simp
  rw [F.lt_roundQuotient_iff num den c hDen, ← mul_lt_mul_iff_left₀ hFactor, hLeft, hRight,
    Nat.cast_lt, ← mul_left_inj' hFactor.ne', hLeft, hRight, Nat.cast_inj]

private theorem num_toNat_div_den (q : ℚ) (hNonneg : 0 ≤ q) :
    (q.num.toNat / q.den : ℚ) = q := by
  have hNum : ((q.num.toNat : ℤ) : ℚ) = (q.num : ℚ) := by
    rw [Int.toNat_of_nonneg (Rat.num_nonneg.mpr hNonneg)]
  rw [← Int.cast_natCast, hNum]
  exact Rat.num_div_den q

/-- The thresholds of rounding. -/
theorem lt_nearestCode_iff (q : ℚ) (hNonneg : 0 ≤ q) (c : Nat) :
    c < F.nearestCode q ↔
      F.codeValue c + F.codeValue (c + 1) < 2 * q ∨
        (F.codeValue c + F.codeValue (c + 1) = 2 * q ∧ c % 2 = 1) := by
  have hUnity := F.unity_cast_pos
  rw [nearestCode, F.lt_roundQuotient_iff_value _ _ c (Rat.den_pos _),
    num_toNat_div_den _ (mul_nonneg hNonneg hUnity.le), mul_div_cancel_right₀ q hUnity.ne']

/-- Rounding a quotient of units is rounding its value. -/
theorem roundQuotient_eq_nearestCode (num den : Nat) (hDen : 0 < den) :
    F.roundQuotient num den = F.nearestCode (num / den / F.unity) := by
  have hNonneg : (0 : ℚ) ≤ num / den / F.unity := by positivity
  apply eq_of_forall_lt_iff
  intro c
  rw [F.lt_roundQuotient_iff_value num den c hDen, F.lt_nearestCode_iff _ hNonneg]

/-- Rounding a dyadic number of units is rounding its value. -/
theorem roundDyadic_eq_nearestCode (m : Nat) (e : Int) :
    F.roundDyadic m e = F.nearestCode (m * 2 ^ e / F.unity) := by
  rw [roundDyadic_eq_roundQuotient, F.roundQuotient_eq_nearestCode _ _ (Nat.two_pow_pos _)]
  congr 2
  push_cast
  rcases Int.le_total 0 e with hSign | hSign
  · obtain ⟨a, rfl⟩ := Int.eq_ofNat_of_zero_le hSign
    simp
  · obtain ⟨b, rfl⟩ : ∃ b : Nat, e = -(b : Int) := ⟨(-e).toNat, by omega⟩
    simp [div_eq_mul_inv]

theorem nearestCode_mono {q r : ℚ} (hNonneg : 0 ≤ q) (hLe : q ≤ r) :
    F.nearestCode q ≤ F.nearestCode r := by
  apply le_of_forall_lt
  intro c hLt
  rw [F.lt_nearestCode_iff q hNonneg] at hLt
  rw [F.lt_nearestCode_iff r (hNonneg.trans hLe)]
  rcases hLt with hBeyond | ⟨hMiddle, hOdd⟩
  · left
    linarith
  · rcases hLe.lt_or_eq with hLess | rfl
    · left
      linarith
    · exact Or.inr ⟨hMiddle, hOdd⟩

@[simp] theorem nearestCode_codeValue (c : Nat) : F.nearestCode (F.codeValue c) = c := by
  apply eq_of_forall_lt_iff
  intro d
  rw [F.lt_nearestCode_iff _ (F.codeValue_nonneg c)]
  have hStep : F.codeValue d < F.codeValue (d + 1) := F.codeValue_strictMono (Nat.lt_succ_self d)
  constructor
  · intro hBeyond
    by_contra hNot
    have hLe : F.codeValue c ≤ F.codeValue d := F.codeValue_strictMono.monotone (by omega)
    rcases hBeyond with hBeyond | ⟨hMiddle, _⟩ <;> linarith
  · intro hLt
    have hLe : F.codeValue (d + 1) ≤ F.codeValue c := F.codeValue_strictMono.monotone hLt
    left
    linarith

/-- The error of rounding is at most half the spacing at the value, or at the least normal value if
that is larger. -/
theorem nearestCode_error (q : ℚ) (hNonneg : 0 ≤ q) :
    |F.codeValue (F.nearestCode q) - q| ≤ max q F.leastNormal / (2 * F.hidden) := by
  have hHidden := F.hidden_cast_pos
  have hAbove := F.lt_nearestCode_iff q hNonneg (F.nearestCode q)
  generalize hCode : F.nearestCode q = c at hAbove ⊢
  have hUpper : 2 * q ≤ F.codeValue c + F.codeValue (c + 1) := by
    by_contra hNot
    exact lt_irrefl c (hAbove.mpr (Or.inl (not_le.mp hNot)))
  have hHalf : max q F.leastNormal / (2 * F.hidden) = max q F.leastNormal / F.hidden / 2 := by
    rw [mul_comm, div_div]
  rw [hHalf, abs_le]
  constructor
  · by_cases hSide : F.codeValue c ≤ q
    · have hSpacing := F.spacing_le c
      rw [F.codeValue_succ] at hUpper
      have hMax : max (F.codeValue c) F.leastNormal / F.hidden ≤ max q F.leastNormal / F.hidden :=
        div_le_div_of_nonneg_right (max_le_max_right _ hSide) hHidden.le
      linarith
    · have hBound : 0 ≤ max q F.leastNormal / F.hidden :=
        div_nonneg (le_max_of_le_left hNonneg) hHidden.le
      linarith
  · cases c with
    | zero =>
        rw [F.codeValue_zero]
        have hBound : 0 ≤ max q F.leastNormal / F.hidden :=
          div_nonneg (le_max_of_le_left hNonneg) hHidden.le
        linarith
    | succ d =>
        have hLower : F.codeValue d + F.codeValue (d + 1) ≤ 2 * q := by
          rcases (F.lt_nearestCode_iff q hNonneg d).mp (by omega) with hBeyond | ⟨hMiddle, _⟩
          · exact hBeyond.le
          · exact hMiddle.le
        have hStep : F.codeValue d < F.codeValue (d + 1) :=
          F.codeValue_strictMono (Nat.lt_succ_self d)
        have hSpacing := F.spacing_le d
        have hMax : max (F.codeValue d) F.leastNormal / F.hidden ≤
            max q F.leastNormal / F.hidden :=
          div_le_div_of_nonneg_right (max_le_max_right _ (by linarith)) hHidden.le
        rw [F.codeValue_succ] at hLower ⊢
        linarith

/-- Rounding to one from below takes a rational that is less than half a spacing away. -/
theorem near_one_of_nearestCode {q : ℚ} {o : Nat} (hOne : F.codeValue o = 1) (hNonneg : 0 ≤ q)
    (hCode : F.nearestCode q = o) :
    2 * F.hidden * (1 - q) < 1 ∧ 2 * F.hidden * (q - 1) ≤ 1 := by
  have hHidden := F.hidden_cast_pos
  have hNormal := F.leastNormal_lt_one
  constructor
  · cases o with
    | zero =>
        rw [codeValue_zero] at hOne
        exact absurd hOne zero_ne_one
    | succ p =>
        have hLower : F.codeValue p + 1 ≤ 2 * q := by
          rw [← hOne]
          rcases (F.lt_nearestCode_iff q hNonneg p).mp (by omega) with hBeyond | ⟨hMiddle, _⟩
          · exact hBeyond.le
          · exact hMiddle.le
        have hStep : F.codeValue p < 1 := hOne ▸ F.codeValue_strictMono (Nat.lt_succ_self p)
        have hSpacing := F.spacing_le p
        have hSucc := F.codeValue_succ p
        rw [le_div_iff₀ hHidden] at hSpacing
        have hMax := max_lt hStep hNormal
        rw [hOne] at hSucc
        nlinarith
  · have hUpper : 2 * q ≤ 1 + F.codeValue (o + 1) := by
      by_contra hNot
      have hBeyond := (F.lt_nearestCode_iff q hNonneg o).mpr (Or.inl (by rw [hOne]; linarith))
      omega
    have hSpacing := F.spacing_le o
    rw [hOne, max_eq_left hNormal.le, le_div_iff₀ hHidden] at hSpacing
    rw [F.codeValue_succ, hOne] at hUpper
    nlinarith

/-- The quotient of two different values does not round to one: they differ by a spacing, and that is
too much. -/
theorem nearestCode_quotient_ne {a b o : Nat} (hOne : F.codeValue o = 1)
    (hPos : 0 < F.codeValue b) (hNe : a ≠ b) :
    F.nearestCode (F.codeValue a / F.codeValue b) ≠ o := by
  have hHidden := F.hidden_cast_pos
  intro hCode
  obtain ⟨hBelow, hAbove⟩ := F.near_one_of_nearestCode hOne
    (div_nonneg (F.codeValue_nonneg a) hPos.le) hCode
  rcases Nat.lt_or_gt_of_ne hNe with hLess | hGreater
  · obtain ⟨e, rfl⟩ : ∃ e, b = e + 1 := ⟨b - 1, by omega⟩
    have hOrder : F.codeValue a ≤ F.codeValue e := F.codeValue_strictMono.monotone (by omega)
    have hSpacing := F.codeValue_succ_le e
    have hSucc := F.codeValue_succ e
    rw [one_sub_div hPos.ne', ← mul_div_assoc, div_lt_one hPos] at hBelow
    nlinarith
  · have hOrder : F.codeValue (b + 1) ≤ F.codeValue a := F.codeValue_strictMono.monotone hGreater
    have hStep : F.codeValue b < F.codeValue (b + 1) :=
      F.codeValue_strictMono (Nat.lt_succ_self b)
    have hSpacing := F.codeValue_succ_le b
    have hSucc := F.codeValue_succ b
    rw [div_sub_one hPos.ne', ← mul_div_assoc, div_le_one hPos] at hAbove
    nlinarith

/-! ## Signed keys -/

/-- The exact value of a signed code. -/
def keyValue (k : Int) : ℚ := k.sign * F.codeValue k.natAbs

/-- The key of the number nearest to a rational; what lies beyond the finite numbers gets the key of
an infinity. -/
def nearestKey (q : ℚ) : Int :=
  if q < 0 then -(min (F.nearestCode (-q)) F.top : Nat) else (min (F.nearestCode q) F.top : Nat)

@[simp] theorem keyValue_natCast (c : Nat) : F.keyValue c = F.codeValue c := by
  cases c with
  | zero => simp [keyValue]
  | succ c =>
      rw [keyValue, Int.sign_eq_one_of_pos (by omega), Int.natAbs_natCast, Int.cast_one, one_mul]

@[simp] theorem keyValue_neg (k : Int) : F.keyValue (-k) = -F.keyValue k := by
  rw [keyValue, keyValue, Int.sign_neg, Int.natAbs_neg, Int.cast_neg, neg_mul]

@[simp] theorem keyValue_zero : F.keyValue 0 = 0 := by
  rw [keyValue, Int.sign_zero, Int.cast_zero, zero_mul]

theorem keyValue_strictMono : StrictMono F.keyValue := by
  intro k l hLt
  rcases Int.le_total 0 k with hSign | hSign
  · obtain ⟨a, rfl⟩ := Int.eq_ofNat_of_zero_le hSign
    obtain ⟨b, rfl⟩ := Int.eq_ofNat_of_zero_le (show 0 ≤ l by omega)
    rw [keyValue_natCast, keyValue_natCast]
    exact F.codeValue_strictMono (by omega)
  · obtain ⟨a, rfl⟩ : ∃ a : Nat, k = -(a : Int) := ⟨k.natAbs, by omega⟩
    rw [keyValue_neg, keyValue_natCast]
    rcases Int.le_total 0 l with hOther | hOther
    · obtain ⟨b, rfl⟩ := Int.eq_ofNat_of_zero_le hOther
      rw [keyValue_natCast]
      have hLow : F.codeValue 0 ≤ F.codeValue a := F.codeValue_strictMono.monotone (Nat.zero_le a)
      have hHigh : F.codeValue 0 ≤ F.codeValue b := F.codeValue_strictMono.monotone (Nat.zero_le b)
      rw [codeValue_zero] at hLow hHigh
      rcases hLow.lt_or_eq with hLow | hLow
      · linarith
      · rcases hHigh.lt_or_eq with hHigh | hHigh
        · linarith
        · have hSame : a = b := F.codeValue_strictMono.injective (hLow.symm.trans hHigh)
          have hNone : a = 0 := F.codeValue_strictMono.injective (by rw [codeValue_zero, hLow])
          omega
    · obtain ⟨b, rfl⟩ : ∃ b : Nat, l = -(b : Int) := ⟨l.natAbs, by omega⟩
      rw [keyValue_neg, keyValue_natCast]
      exact neg_lt_neg (F.codeValue_strictMono (by omega))

theorem nearestKey_of_nonneg {q : ℚ} (hNonneg : 0 ≤ q) :
    F.nearestKey q = (min (F.nearestCode q) F.top : Nat) := if_neg (not_lt.mpr hNonneg)

theorem nearestKey_neg (q : ℚ) : F.nearestKey (-q) = -F.nearestKey q := by
  have hZero : F.nearestCode 0 = 0 := by
    rw [← F.codeValue_zero, nearestCode_codeValue]
  rcases lt_trichotomy q 0 with hNeg | rfl | hPos
  · rw [F.nearestKey_of_nonneg (by linarith), nearestKey, if_pos hNeg, neg_neg]
  · rw [neg_zero, F.nearestKey_of_nonneg le_rfl, hZero]
    simp
  · rw [nearestKey, if_pos (by linarith), neg_neg, F.nearestKey_of_nonneg hPos.le]

theorem nearestKey_nonneg {q : ℚ} (hNonneg : 0 ≤ q) : 0 ≤ F.nearestKey q := by
  rw [F.nearestKey_of_nonneg hNonneg]
  exact Int.natCast_nonneg _

private theorem nearestKey_mono_nonneg {q r : ℚ} (hNonneg : 0 ≤ q) (hLe : q ≤ r) :
    F.nearestKey q ≤ F.nearestKey r := by
  rw [F.nearestKey_of_nonneg hNonneg, F.nearestKey_of_nonneg (hNonneg.trans hLe)]
  have hCode := F.nearestCode_mono hNonneg hLe
  omega

/-- Rounding is monotone. -/
theorem nearestKey_mono : Monotone F.nearestKey := by
  intro q r hLe
  rcases le_total 0 q with hSign | hSign
  · exact F.nearestKey_mono_nonneg hSign hLe
  · rcases le_total 0 r with hOther | hOther
    · have hLow := F.nearestKey_nonneg (neg_nonneg.mpr hSign)
      have hHigh := F.nearestKey_nonneg hOther
      rw [nearestKey_neg] at hLow
      omega
    · have hFlip := F.nearestKey_mono_nonneg (neg_nonneg.mpr hOther) (neg_le_neg hLe)
      rw [nearestKey_neg, nearestKey_neg] at hFlip
      omega

/-- Rounding does not move the value of a number. -/
theorem nearestKey_keyValue (k : Int) (hRange : k.natAbs ≤ F.top) :
    F.nearestKey (F.keyValue k) = k := by
  rcases Int.le_total 0 k with hSign | hSign
  · obtain ⟨a, rfl⟩ := Int.eq_ofNat_of_zero_le hSign
    rw [keyValue_natCast, F.nearestKey_of_nonneg (F.codeValue_nonneg a), nearestCode_codeValue]
    omega
  · obtain ⟨a, rfl⟩ : ∃ a : Nat, k = -(a : Int) := ⟨k.natAbs, by omega⟩
    rw [keyValue_neg, nearestKey_neg, keyValue_natCast,
      F.nearestKey_of_nonneg (F.codeValue_nonneg a), nearestCode_codeValue]
    omega

private theorem nearestKey_error_nonneg (q : ℚ) (hNonneg : 0 ≤ q)
    (hFinite : (F.nearestKey q).natAbs < F.top) :
    |F.keyValue (F.nearestKey q) - q| ≤ max |q| F.leastNormal / (2 * F.hidden) := by
  rw [F.nearestKey_of_nonneg hNonneg] at hFinite ⊢
  have hCode : min (F.nearestCode q) F.top = F.nearestCode q := by omega
  rw [hCode, keyValue_natCast, abs_of_nonneg hNonneg]
  exact F.nearestCode_error q hNonneg

/-- The error of rounding to a finite number. -/
theorem nearestKey_error (q : ℚ) (hFinite : (F.nearestKey q).natAbs < F.top) :
    |F.keyValue (F.nearestKey q) - q| ≤ max |q| F.leastNormal / (2 * F.hidden) := by
  rcases le_total 0 q with hSign | hSign
  · exact F.nearestKey_error_nonneg q hSign hFinite
  · have hFlip := F.nearestKey_error_nonneg (-q) (neg_nonneg.mpr hSign)
      (by rwa [nearestKey_neg, Int.natAbs_neg])
    rw [nearestKey_neg, keyValue_neg, abs_neg, ← neg_sub', abs_neg] at hFlip
    exact hFlip

end Format

namespace Binary

variable {F : Format}

/-! ## Values of numbers -/

/-- The exact value of a number; NaN is given the value zero, and an infinity the value that its code
would have in a format without an upper limit. -/
def value (x : Binary F) : ℚ := F.keyValue x.key

theorem natAbs_key_le_top (x : Binary F) : x.key.natAbs ≤ F.top := by
  have hHigh := key_le_top x
  have hLow := neg_top_le_key x
  omega

theorem isFinite_iff (x : Binary F) :
    x.isFinite = true ↔ x.isNaN = false ∧ x.key.natAbs < F.top := by
  match x with
  | .nan => simp [isFinite, isNaN]
  | .signed false m =>
      have hTop := m.code_le_top
      simp only [isFinite, isNaN, key, Magnitude.isInfinite, Bool.not_eq_true', beq_eq_false_iff_ne,
        true_and]
      omega
  | .signed true m =>
      have hTop := m.code_le_top
      simp only [isFinite, isNaN, key, Magnitude.isInfinite, Bool.not_eq_true', beq_eq_false_iff_ne,
        true_and]
      omega

theorem isNaN_of_isFinite {x : Binary F} (hFinite : x.isFinite = true) : x.isNaN = false :=
  ((isFinite_iff x).mp hFinite).1

/-! ### Values and keys -/

theorem value_le_iff_key {x y : Binary F} : x.value ≤ y.value ↔ x.key ≤ y.key :=
  F.keyValue_strictMono.le_iff_le

theorem value_lt_iff_key {x y : Binary F} : x.value < y.value ↔ x.key < y.key :=
  F.keyValue_strictMono.lt_iff_lt

theorem value_eq_iff_key {x y : Binary F} : x.value = y.value ↔ x.key = y.key :=
  F.keyValue_strictMono.injective.eq_iff

theorem le_iff_value {x y : Binary F} :
    x ≤ y ↔ x.isNaN = false ∧ y.isNaN = false ∧ x.value ≤ y.value := by
  rw [value_le_iff_key]
  rfl

theorem lt_iff_value {x y : Binary F} :
    x < y ↔ x.isNaN = false ∧ y.isNaN = false ∧ x.value < y.value := by
  rw [value_lt_iff_key]
  rfl

/-! ## Rounding -/

/-- The number is the given rational, rounded to the format. -/
def Rounds (x : Binary F) (q : ℚ) : Prop := x.isNaN = false ∧ x.key = F.nearestKey q

theorem rounds_value (x : Binary F) (hNumber : x.isNaN = false) : x.Rounds x.value :=
  ⟨hNumber, (F.nearestKey_keyValue x.key (natAbs_key_le_top x)).symm⟩

namespace Rounds

variable {x y : Binary F} {q r : ℚ}

theorem value_mono (hx : x.Rounds q) (hy : y.Rounds r) (hLe : q ≤ r) : x.value ≤ y.value := by
  rw [value_le_iff_key, hx.2, hy.2]
  exact F.nearestKey_mono hLe

theorem value_le (hx : x.Rounds q) (hy : y.isNaN = false) (hLe : q ≤ y.value) :
    x.value ≤ y.value := hx.value_mono (rounds_value y hy) hLe

theorem le_value (hx : x.Rounds q) (hy : y.isNaN = false) (hLe : y.value ≤ q) :
    y.value ≤ x.value := (rounds_value y hy).value_mono hx hLe

/-- A value of the format is not changed by rounding. -/
theorem value_eq (hx : x.Rounds y.value) (hy : y.isNaN = false) : x.value = y.value :=
  le_antisymm (hx.value_le hy le_rfl) (hx.le_value hy le_rfl)

/-- What is not too large rounds to a finite number. -/
theorem isFinite (hx : x.Rounds q) (hLow : 0 ≤ q) (hHigh : q ≤ 2 ^ 100) : x.isFinite = true := by
  have hTop := F.hidden_lt_top
  have hHidden := F.hidden_pos
  have hKey := F.nearestKey_mono (hHigh.trans F.large_le_codeValue)
  rw [← F.keyValue_natCast, F.nearestKey_keyValue _ (by omega), ← hx.2] at hKey
  have hSign := F.nearestKey_nonneg hLow
  rw [← hx.2] at hSign
  exact (isFinite_iff x).mpr ⟨hx.1, by omega⟩

theorem error_le (hx : x.Rounds q) (hFinite : x.isFinite = true) :
    |x.value - q| ≤ max |q| F.leastNormal / (2 * F.hidden) := by
  have hKey := ((isFinite_iff x).mp hFinite).2
  rw [hx.2] at hKey
  rw [value, hx.2]
  exact F.nearestKey_error q hKey

end Rounds

end Binary

end StepSampling
