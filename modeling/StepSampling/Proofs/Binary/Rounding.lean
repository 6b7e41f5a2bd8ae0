import StepSampling.Binary.Rounding
import Mathlib.Tactic.Ring

/-!
# Rounding quotients

`roundEven` is described by its thresholds: the rounded quotient lies above `m` exactly when the
quotient lies beyond the middle between `m` and `m + 1`, or on it when `m` is odd.  A whole quotient is
not changed and a common factor cancels, and so the two ways to round to a code agree.
-/

namespace StepSampling

/-! ## Rounding to a natural number -/

/-- The rounded quotient exceeds `m` beyond the middle between `m` and `m + 1`, and on it when `m` is
odd. -/
theorem lt_roundEven_iff (num den m : Nat) (hDen : 0 < den) :
    m < roundEven num den ↔
      (2 * m + 1) * den < 2 * num ∨ ((2 * m + 1) * den = 2 * num ∧ m % 2 = 1) := by
  have hNum : den * (num / den) + num % den = num := Nat.div_add_mod num den
  have hRest : num % den < den := Nat.mod_lt num hDen
  unfold roundEven
  generalize num / den = q at hNum ⊢
  generalize num % den = r at hNum hRest ⊢
  dsimp only
  have hMiddle : (2 * m + 1) * den = 2 * (den * m) + den := by ring
  rw [hMiddle]
  rcases Nat.lt_trichotomy m q with hLess | rfl | hMore
  · have hStep : den * (m + 1) ≤ den * q := Nat.mul_le_mul_left den hLess
    rw [Nat.mul_succ] at hStep
    constructor
    · intro _
      left
      omega
    · intro _
      split
      · omega
      · split <;> omega
  · split
    · omega
    · split <;> omega
  · have hStep : den * (q + 1) ≤ den * m := Nat.mul_le_mul_left den hMore
    rw [Nat.mul_succ] at hStep
    constructor
    · intro hLt
      exfalso
      -- only a quotient that is rounded up can be reached here, and then `q + 1 ≤ m`
      split at hLt
      · omega
      · split at hLt <;> omega
    · intro hBeyond
      omega

/-- Rounding does not pass a natural number from above. -/
theorem le_roundEven {num den m : Nat} (hDen : 0 < den) (hLe : m * den ≤ num) :
    m ≤ roundEven num den := by
  cases m with
  | zero => exact Nat.zero_le _
  | succ m =>
      rw [Nat.succ_le_iff, lt_roundEven_iff num den m hDen]
      left
      calc (2 * m + 1) * den < 2 * (m + 1) * den := Nat.mul_lt_mul_of_pos_right (by omega) hDen
        _ = 2 * ((m + 1) * den) := Nat.mul_assoc 2 (m + 1) den
        _ ≤ 2 * num := Nat.mul_le_mul_left 2 hLe

/-- Rounding does not pass a natural number from below. -/
theorem roundEven_le {num den m : Nat} (hDen : 0 < den) (hLe : num ≤ m * den) :
    roundEven num den ≤ m := by
  have hMiddle : 2 * num < (2 * m + 1) * den := by
    calc 2 * num ≤ 2 * (m * den) := Nat.mul_le_mul_left 2 hLe
      _ = 2 * m * den := (Nat.mul_assoc 2 m den).symm
      _ < (2 * m + 1) * den := Nat.mul_lt_mul_of_pos_right (by omega) hDen
  rw [← Nat.not_lt, lt_roundEven_iff num den m hDen]
  omega

/-! ## The two roundings agree -/

/-- A whole quotient is not changed. -/
theorem roundEven_mul_left (m den : Nat) (hDen : 0 < den) : roundEven (m * den) den = m := by
  have hDiv : m * den / den = m := Nat.mul_div_cancel m hDen
  have hMod : m * den % den = 0 := Nat.mul_mod_left m den
  simp only [roundEven, hDiv, hMod]
  split
  · omega
  · split
    · omega
    · rfl

/-- A common factor cancels. -/
theorem roundEven_mul_mul (num den c : Nat) (hPos : 0 < c) :
    roundEven (num * c) (den * c) = roundEven num den := by
  have hDiv : num * c / (den * c) = num / den := Nat.mul_div_mul_right num den hPos
  have hMod : num * c % (den * c) = num % den * c := Nat.mul_mod_mul_right c num den
  have hTwice : 2 * (num % den * c) = 2 * (num % den) * c := (Nat.mul_assoc 2 (num % den) c).symm
  have hLt : den * c < 2 * (num % den) * c ↔ den < 2 * (num % den) :=
    Nat.mul_lt_mul_right hPos
  have hEq : 2 * (num % den) * c = den * c ↔ 2 * (num % den) = den :=
    Nat.mul_left_inj (Nat.pos_iff_ne_zero.mp hPos)
  simp only [roundEven, hDiv, hMod, hTwice, hLt, hEq]

private theorem log2_shiftRight (m b : Nat) : Nat.log2 (m / 2 ^ b) = Nat.log2 m - b := by
  induction b generalizing m with
  | zero => simp
  | succ b ih =>
    rw [Nat.pow_succ, Nat.mul_comm, ← Nat.div_div_eq_div_mul, ih]
    by_cases hSmall : m < 2
    · have hHalf : m / 2 = 0 := by omega
      have hZero : Nat.log2 m = 0 := by
        match m, hSmall with
        | 0, _ => rfl
        | 1, _ => rfl
      simp [hHalf, hZero]
    · rw [Nat.log2_def m, if_pos (by omega)]
      omega

private theorem log2_shiftLeft (m a : Nat) (hPos : m ≠ 0) :
    Nat.log2 (m * 2 ^ a) = Nat.log2 m + a := by
  have hBack := log2_shiftRight (m * 2 ^ a) a
  rw [Nat.mul_div_cancel m (Nat.two_pow_pos a)] at hBack
  have hLow : a ≤ Nat.log2 (m * 2 ^ a) := by
    rw [Nat.le_log2 (Nat.mul_ne_zero hPos (Nat.pos_iff_ne_zero.mp (Nat.two_pow_pos a)))]
    exact Nat.le_mul_of_pos_left _ (Nat.pos_of_ne_zero hPos)
  omega

namespace Format

/-- Rounding a dyadic number is rounding the quotient that it stands for. -/
theorem roundDyadic_eq_roundQuotient (F : Format) (m : Nat) (e : Int) :
    F.roundDyadic m e = F.roundQuotient (m * 2 ^ e.toNat) (2 ^ (-e).toNat) := by
  by_cases hZero : m = 0
  · simp [roundDyadic, roundQuotient, hZero, roundEven]
  · by_cases hSign : 0 ≤ e
    · obtain ⟨a, rfl⟩ := Int.eq_ofNat_of_zero_le hSign
      have hPow : (2 : Nat) ^ (-(a : Int)).toNat = 1 := by
        have : (-(a : Int)).toNat = 0 := by omega
        rw [this, Nat.pow_zero]
      have hShift : ((Nat.log2 m : Int) + a - F.fractionBits).toNat =
          Nat.log2 (m * 2 ^ a / 1) - F.fractionBits := by
        rw [Nat.div_one, log2_shiftLeft m a hZero]
        omega
      simp only [roundDyadic, roundQuotient, hZero, if_false, Int.toNat_natCast, hPow, hShift]
      generalize Nat.log2 (m * 2 ^ a / 1) - F.fractionBits = s
      congr 1
      simp only [Nat.shiftLeft_eq, Nat.one_mul]
      by_cases hSmall : s ≤ a
      · rw [if_pos (by omega)]
        have hSplit : m * 2 ^ a = m * 2 ^ ((a : Int) - s).toNat * 2 ^ s := by
          rw [Nat.mul_assoc, ← Nat.pow_add]
          congr 2
          omega
        rw [hSplit, roundEven_mul_left _ _ (Nat.two_pow_pos s)]
      · rw [if_neg (by omega)]
        have hSplit : 2 ^ s = 2 ^ ((s : Int) - a).toNat * 2 ^ a := by
          rw [← Nat.pow_add]
          congr 1
          omega
        rw [hSplit, roundEven_mul_mul _ _ _ (Nat.two_pow_pos a)]
    · obtain ⟨b, rfl⟩ : ∃ b : Nat, e = -(b : Int) := ⟨(-e).toNat, by omega⟩
      have hPow : (2 : Nat) ^ (-(b : Int)).toNat = 1 := by
        have : (-(b : Int)).toNat = 0 := by omega
        rw [this, Nat.pow_zero]
      have hNeg : (- -(b : Int)).toNat = b := by omega
      have hShift : ((Nat.log2 m : Int) + -(b : Int) - F.fractionBits).toNat =
          Nat.log2 (m * 1 / 2 ^ b) - F.fractionBits := by
        rw [Nat.mul_one, log2_shiftRight]
        omega
      simp only [roundDyadic, roundQuotient, hZero, if_false, hPow, hNeg, hShift]
      generalize Nat.log2 (m * 1 / 2 ^ b) - F.fractionBits = s
      congr 1
      rw [if_neg (by omega)]
      simp only [Nat.shiftLeft_eq, Nat.one_mul, Nat.mul_one]
      congr 1
      rw [← Nat.pow_add]
      congr 1
      omega

end Format

end StepSampling
