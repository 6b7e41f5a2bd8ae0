import StepSampling.Decimal.Reading
import Mathlib.Data.List.Induction
import Mathlib.Tactic.Ring

/-!
# Digits

Writing a number as digits and reading the digits gives the number back.
-/

namespace StepSampling.Decimal

theorem isDigit_iff {c : Char} : isDigit c = true ↔ 48 ≤ c.toNat ∧ c.toNat ≤ 57 := by
  rw [isDigit, Bool.and_eq_true, decide_eq_true_eq, decide_eq_true_eq]
  exact Iff.rfl

theorem isDigit_digitChar {d : Nat} (hDigit : d < 10) : isDigit (digitChar d) = true := by
  revert d
  decide

theorem toNat_digitChar {d : Nat} (hDigit : d < 10) : (digitChar d).toNat - 48 = d := by
  revert d
  decide

theorem isDigit_of_mem_fixedDigits {width n : Nat} {c : Char} (hMem : c ∈ fixedDigits width n) :
    isDigit c = true := by
  induction width generalizing n with
  | zero => cases hMem
  | succ width ih =>
      rcases List.mem_append.mp hMem with hFront | hLast
      · exact ih hFront
      · rw [List.mem_singleton.mp hLast]
        exact isDigit_digitChar (Nat.mod_lt n (by decide))

theorem length_fixedDigits (width n : Nat) : (fixedDigits width n).length = width := by
  induction width generalizing n with
  | zero => rfl
  | succ width ih => rw [fixedDigits, List.length_append, ih, List.length_singleton]

/-- The digits of a number are digits, and there is at least one. -/
theorem digits_all (n : Nat) : digits n ≠ [] ∧ (digits n).all isDigit = true := by
  constructor
  · unfold digits digitCount
    split <;> simp [fixedDigits]
  · exact List.all_eq_true.mpr fun c hMem => isDigit_of_mem_fixedDigits hMem

theorem ofDigits_append_singleton (cs : List Char) (c : Char) :
    ofDigits (cs ++ [c]) = 10 * ofDigits cs + (c.toNat - 48) := by
  rw [ofDigits, List.foldl_append]
  rfl

/-- Digits in front count by the number of digits behind them. -/
theorem ofDigits_append (cs ds : List Char) :
    ofDigits (cs ++ ds) = ofDigits cs * 10 ^ ds.length + ofDigits ds := by
  induction ds using List.reverseRecOn with
  | nil => simp [ofDigits]
  | append_singleton ds d ih =>
      rw [← List.append_assoc, ofDigits_append_singleton, ofDigits_append_singleton, ih,
        List.length_append, List.length_singleton, Nat.pow_succ]
      ring

/-- The last digits of a number denote it up to a power of ten. -/
theorem ofDigits_fixedDigits (width n : Nat) : ofDigits (fixedDigits width n) = n % 10 ^ width := by
  induction width generalizing n with
  | zero => exact (Nat.mod_one n).symm
  | succ width ih =>
      rw [fixedDigits, ofDigits_append_singleton, ih, toNat_digitChar (Nat.mod_lt n (by decide)),
        Nat.pow_succ', Nat.mod_mul, Nat.add_comm]

theorem lt_pow_digitCount (n : Nat) : n < 10 ^ digitCount n := by
  fun_induction digitCount n with
  | case1 n hSmall => omega
  | case2 n hLarge ih =>
      rw [Nat.pow_succ]
      omega

theorem pow_digitCount_le {n : Nat} (hPos : 0 < n) : 10 ^ digitCount n ≤ 10 * n := by
  fun_induction digitCount n with
  | case1 n hSmall => omega
  | case2 n hLarge ih =>
      have hFront := ih (by omega)
      rw [Nat.pow_succ]
      omega

/-- All digits of a number denote it. -/
theorem ofDigits_digits (n : Nat) : ofDigits (digits n) = n := by
  rw [digits, ofDigits_fixedDigits, Nat.mod_eq_of_lt (lt_pow_digitCount n)]

end StepSampling.Decimal
