import StepSampling.Proofs.Binary.Rounding
import Mathlib.Order.Monotone.Basic
import Mathlib.Tactic.Linarith
import Mathlib.Tactic.Ring

/-!
# Codes in the order of their units

The units of a code grow strictly with the code, by a power of two from each code to the next.  So a
rounding is known by its thresholds: the code of a quotient lies above `c` exactly when the quotient
lies beyond the middle between `c` and `c + 1`, or on it when `c` is odd.

`lt_roundQuotient_iff` is this description of `Format.roundQuotient`.  It speaks of the quotient alone
and of no shift, and the theory of the arithmetic starts from it.
-/

namespace StepSampling

namespace Format

variable (F : Format)

/-! ## Constants -/

theorem hidden_eq : F.hidden = 2 ^ F.fractionBits := by
  cases F <;> rfl

theorem top_eq : F.top = (2 ^ F.exponentBits - 1) * F.hidden := by
  cases F <;> rfl

theorem signBit_eq : F.signBit = 2 ^ F.exponentBits * F.hidden := by
  cases F <;> rfl

theorem scale_eq : F.scale = 2 ^ (F.exponentBits - 1) - 2 + F.fractionBits := by
  cases F <;> rfl

theorem unity_eq : F.unity = 2 ^ F.scale := by
  rw [← Nat.one_shiftLeft]
  cases F <;> rfl

theorem hidden_pos : 0 < F.hidden := by
  cases F <;> decide

theorem two_dvd_hidden : 2 ∣ F.hidden := by
  cases F <;> decide

theorem hidden_lt_top : F.hidden < F.top := by
  cases F <;> decide

theorem top_lt_signBit : F.top < F.signBit := by
  cases F <;> decide

theorem unity_pos : 0 < F.unity := by
  rw [unity_eq]
  exact Nat.two_pow_pos F.scale

/-! ## The units of a code -/

/-- Up to twice the weight of the leading bit, a code counts its own units. -/
theorem unitsOf_of_le (c : Nat) (hLe : c ≤ 2 * F.hidden) : F.unitsOf c = c := by
  have hPos := F.hidden_pos
  unfold unitsOf significandOf shiftOf
  rw [Nat.shiftLeft_eq]
  by_cases hSub : c < F.hidden
  · rw [if_pos hSub, Nat.div_eq_of_lt hSub]
    simp
  · rw [if_neg hSub]
    obtain ⟨m, rfl⟩ : ∃ m, c = F.hidden + m := ⟨c - F.hidden, by omega⟩
    rw [Nat.add_mod_left, Nat.add_div_left m hPos]
    by_cases hTop : m < F.hidden
    · rw [Nat.mod_eq_of_lt hTop, Nat.div_eq_of_lt hTop]
      simp
    · obtain rfl : m = F.hidden := by omega
      rw [Nat.mod_self, Nat.div_self hPos]
      simp only [Nat.add_sub_cancel]
      omega

/-- A code with the shift `s` counts its significand, shifted.  The formula also holds at the upper
end, where the carry has moved into the exponent. -/
theorem unitsOf_shifted (s m : Nat) (hLow : F.hidden ≤ m) (hHigh : m ≤ 2 * F.hidden) :
    F.unitsOf (s * F.hidden + m) = m * 2 ^ s := by
  have hPos := F.hidden_pos
  unfold unitsOf significandOf shiftOf
  rw [Nat.shiftLeft_eq, if_neg (by omega)]
  obtain ⟨r, rfl⟩ : ∃ r, m = F.hidden + r := ⟨m - F.hidden, by omega⟩
  have hSplit : s * F.hidden + (F.hidden + r) = r + F.hidden * (s + 1) := by ring
  rw [hSplit, Nat.add_mul_mod_self_left, Nat.add_mul_div_left r (s + 1) hPos]
  by_cases hTop : r < F.hidden
  · rw [Nat.mod_eq_of_lt hTop, Nat.div_eq_of_lt hTop, Nat.zero_add, Nat.add_sub_cancel]
  · obtain rfl : r = F.hidden := by omega
    rw [Nat.mod_self, Nat.div_self hPos, Nat.add_zero, show 1 + (s + 1) - 1 = s + 1 by omega,
      Nat.pow_succ]
    ring

/-- A code of a normal number splits into its shift and its significand. -/
theorem exists_significand (c : Nat) (hNormal : F.hidden ≤ c) :
    ∃ m, F.hidden ≤ m ∧ m < 2 * F.hidden ∧ c = F.shiftOf c * F.hidden + m := by
  have hPos := F.hidden_pos
  have hMod : c % F.hidden < F.hidden := Nat.mod_lt c hPos
  obtain ⟨d, hDiv⟩ : ∃ d, c / F.hidden = d + 1 :=
    ⟨c / F.hidden - 1, by have := Nat.div_pos hNormal hPos; omega⟩
  have hParts := Nat.div_add_mod' c F.hidden
  rw [hDiv, Nat.succ_mul] at hParts
  refine ⟨F.hidden + c % F.hidden, by omega, by omega, ?_⟩
  rw [shiftOf, hDiv, Nat.add_sub_cancel]
  omega

/-- From one code to the next the units grow by two to the shift. -/
theorem unitsOf_succ (c : Nat) : F.unitsOf (c + 1) = F.unitsOf c + 2 ^ F.shiftOf c := by
  by_cases hSub : c < F.hidden
  · rw [unitsOf_of_le F (c + 1) (by omega), unitsOf_of_le F c (by omega), shiftOf,
      Nat.div_eq_of_lt hSub]
    rfl
  · obtain ⟨m, hLow, hHigh, hCode⟩ := F.exists_significand c (by omega)
    generalize F.shiftOf c = s at hCode ⊢
    rw [hCode, Nat.add_assoc, unitsOf_shifted F s (m + 1) (by omega) (by omega),
      unitsOf_shifted F s m hLow (by omega), Nat.succ_mul]

/-- Larger codes have more units. -/
theorem unitsOf_strictMono : StrictMono F.unitsOf := by
  apply strictMono_nat_of_lt_succ
  intro c
  rw [unitsOf_succ]
  exact Nat.lt_add_of_pos_right (Nat.two_pow_pos _)

/-! ## The thresholds of rounding -/

/-- The shift that rounding chooses bounds the quotient from both sides. -/
private theorem shift_bounds (num den s : Nat) (hDen : 0 < den)
    (hShift : s = Nat.log2 (num / den) - F.fractionBits) :
    num < 2 * F.hidden * 2 ^ s * den ∧ (s = 0 ∨ F.hidden * 2 ^ s * den ≤ num) := by
  rw [hidden_eq]
  constructor
  · rw [← Nat.div_lt_iff_lt_mul hDen]
    have hPow : 2 ^ (Nat.log2 (num / den) + 1) ≤ 2 ^ (F.fractionBits + 1 + s) :=
      Nat.pow_le_pow_right (by decide) (by omega)
    have hLog : num / den < 2 ^ (Nat.log2 (num / den) + 1) := Nat.lt_log2_self
    calc num / den < 2 ^ (F.fractionBits + 1 + s) := Nat.lt_of_lt_of_le hLog hPow
      _ = 2 * 2 ^ F.fractionBits * 2 ^ s := by ring
  · by_cases hZero : s = 0
    · exact Or.inl hZero
    · right
      rw [← Nat.le_div_iff_mul_le hDen, ← Nat.pow_add]
      have hSum : F.fractionBits + s = Nat.log2 (num / den) := by omega
      rw [hSum]
      apply Nat.log2_self_le
      intro hNone
      rw [hNone, Nat.log2_zero] at hSum
      omega

/-- The formula for the units holds throughout the stretch of codes that rounding with the shift `s`
can reach. -/
private theorem unitsOf_stretch {s m : Nat} (hLow : s = 0 ∨ F.hidden ≤ m)
    (hHigh : m ≤ 2 * F.hidden) : F.unitsOf (s * F.hidden + m) = m * 2 ^ s := by
  rcases hLow with rfl | hLow
  · simp only [Nat.zero_mul, Nat.zero_add, Nat.pow_zero, Nat.mul_one]
    exact F.unitsOf_of_le m hHigh
  · exact F.unitsOf_shifted s m hLow hHigh

/-- The code of a quotient exceeds `c` beyond the middle between `c` and `c + 1`, and on it when `c`
is odd. -/
theorem lt_roundQuotient_iff (num den c : Nat) (hDen : 0 < den) :
    c < F.roundQuotient num den ↔
      (F.unitsOf c + F.unitsOf (c + 1)) * den < 2 * num ∨
        ((F.unitsOf c + F.unitsOf (c + 1)) * den = 2 * num ∧ c % 2 = 1) := by
  unfold roundQuotient
  dsimp only
  generalize hShift : Nat.log2 (num / den) - F.fractionBits = s
  rw [Nat.shiftLeft_eq]
  obtain ⟨hHigh, hLow⟩ := F.shift_bounds num den s hDen hShift.symm
  have hPos := F.hidden_pos
  have hScaled : 0 < den * 2 ^ s := Nat.mul_pos hDen (Nat.two_pow_pos s)
  have hStep : F.unitsOf c < F.unitsOf (c + 1) := F.unitsOf_strictMono (Nat.lt_succ_self c)
  -- the three cases are the codes above, in and below the stretch that has the shift `s`
  rcases Nat.lt_or_ge c (s * F.hidden + 2 * F.hidden) with hBelow | hAbove
  · by_cases hInside : s = 0 ∨ s * F.hidden + F.hidden ≤ c
    · obtain ⟨m, rfl⟩ : ∃ m, c = s * F.hidden + m := ⟨c - s * F.hidden, by
        rcases hInside with rfl | hInside <;> omega⟩
      have hStart : s = 0 ∨ F.hidden ≤ m := hInside.imp_right (by omega)
      have hNext : s = 0 ∨ F.hidden ≤ m + 1 := hStart.imp_right (by omega)
      have hParity : (s * F.hidden + m) % 2 = m % 2 := by
        obtain ⟨half, hHalf⟩ := F.two_dvd_hidden
        rw [hHalf, Nat.mul_left_comm, Nat.mul_add_mod]
      have hMiddle : (m * 2 ^ s + (m + 1) * 2 ^ s) * den = (2 * m + 1) * (den * 2 ^ s) := by ring
      rw [Nat.add_assoc, F.unitsOf_stretch hStart (by omega), F.unitsOf_stretch hNext (by omega),
        hParity, hMiddle, ← lt_roundEven_iff num (den * 2 ^ s) m hScaled]
      omega
    · have hNormal : F.hidden * 2 ^ s * den ≤ num := by
        rcases hLow with hZero | hNormal
        · exact absurd (Or.inl hZero) hInside
        · exact hNormal
      have hRounded : F.hidden ≤ roundEven num (den * 2 ^ s) :=
        le_roundEven hScaled (by linarith)
      have hCode : F.unitsOf (c + 1) ≤ F.hidden * 2 ^ s := by
        rw [← F.unitsOf_shifted s F.hidden (Nat.le_refl _) (by omega)]
        exact F.unitsOf_strictMono.monotone (by omega)
      constructor
      · intro _
        left
        calc (F.unitsOf c + F.unitsOf (c + 1)) * den
            < 2 * (F.hidden * 2 ^ s) * den := Nat.mul_lt_mul_of_pos_right (by omega) hDen
          _ = 2 * (F.hidden * 2 ^ s * den) := by ring
          _ ≤ 2 * num := Nat.mul_le_mul_left 2 hNormal
      · intro _
        omega
  · have hRounded : roundEven num (den * 2 ^ s) ≤ 2 * F.hidden :=
      roundEven_le hScaled (by linarith)
    have hCode : 2 * F.hidden * 2 ^ s ≤ F.unitsOf c := by
      rw [← F.unitsOf_shifted s (2 * F.hidden) (by omega) (Nat.le_refl _)]
      exact F.unitsOf_strictMono.monotone hAbove
    have hExcess : 2 * num < (F.unitsOf c + F.unitsOf (c + 1)) * den := by
      calc 2 * num < 2 * (2 * F.hidden * 2 ^ s * den) := by omega
        _ = 2 * (2 * F.hidden * 2 ^ s) * den := by ring
        _ ≤ (F.unitsOf c + F.unitsOf (c + 1)) * den := Nat.mul_le_mul_right den (by omega)
    constructor
    · intro hLt
      omega
    · intro hBeyond
      omega

end Format

end StepSampling
