import Mathlib.NumberTheory.Multiplicity
import StepSampling.Generator

/-!
# The period of a generator

Drawing leads a generator along an orbit of words.  One draw moves the word by its stride, and `k`
draws move it by `1 + m + … + m ^ (k - 1)` strides, where `m` is the multiplier.  The stride of a
generator with an odd increment is odd, so the orbit closes after `k` draws just when the sum of
powers vanishes modulo `2 ^ 64`.  Since `m` is one more than a multiple of four, that sum is divisible
by the same powers of two as `k` itself: the orbit closes after `2 ^ 64` draws and not before, and so
runs through every word.
-/

namespace StepSampling.Generator

/-- The generator after a number of draws. -/
def after (g : Generator) (draws : Nat) : Generator := (fun h => h.next.2)^[draws] g

/-- Whether the increment is odd. -/
def IsOdd (g : Generator) : Prop := g.increment.toNat % 2 = 1

/-! ## Draw after draw -/

@[simp] theorem after_zero (g : Generator) : g.after 0 = g := rfl

theorem after_succ (g : Generator) (k : Nat) : g.after (k + 1) = (g.after k).advance :=
  Function.iterate_succ_apply' _ _ _

theorem after_add (g : Generator) (j k : Nat) : g.after (j + k) = (g.after j).after k := by
  rw [after, Nat.add_comm, Function.iterate_add_apply]
  rfl

@[simp] theorem increment_after (g : Generator) (k : Nat) : (g.after k).increment = g.increment := by
  induction k with
  | zero => rfl
  | succ k ih => rw [after_succ, advance, ih]

theorem IsOdd.after {g : Generator} (hOdd : g.IsOdd) (k : Nat) : (g.after k).IsOdd := by
  rw [IsOdd, increment_after]
  exact hOdd

/-- Generators of one stream are the same when their words are. -/
theorem after_eq_iff_state (g : Generator) (k : Nat) :
    g.after k = g ↔ (g.after k).state.toNat = g.state.toNat := by
  rw [UInt64.toNat_inj]
  refine ⟨fun hSame => by rw [hSame], ?_⟩
  intro hState
  have hIncrement := increment_after g k
  generalize g.after k = h at hState hIncrement
  cases h
  cases g
  simp only at hState hIncrement
  rw [hState, hIncrement]

/-! ## The generators that are built -/

/-- The increment of a seeded generator ends in a one. -/
theorem isOdd_ofSeed (seed : UInt64) : (ofSeed seed).IsOdd := by
  show ((seed <<< 1) ||| 1).toNat % 2 = 1
  rw [UInt64.toNat_or, Nat.mod_two_eq_one_iff_testBit_zero]
  simp

theorem isOdd_standard : standard.IsOdd := rfl

/-! ## Strides -/

/-- The multiplier as a natural number, one more than a multiple of four. -/
def quarter : Nat := multiplier.toNat / 4

theorem multiplier_eq : multiplier.toNat = 4 * quarter + 1 := by
  decide

/-- How far one draw moves the word. -/
def stride (g : Generator) : Nat := 4 * quarter * g.state.toNat + g.increment.toNat

theorem IsOdd.stride {g : Generator} (hOdd : g.IsOdd) : Nat.Coprime (2 ^ 64) g.stride := by
  have hEven : 2 ∣ 4 * quarter * g.state.toNat :=
    ((show 2 ∣ 4 by decide).mul_right _).mul_right _
  apply Nat.Coprime.pow_left
  rw [Nat.coprime_two_left, Nat.odd_iff, Generator.stride]
  rw [IsOdd] at hOdd
  omega

/-- The word after `k` draws, modulo `2 ^ 64`. -/
theorem state_after (g : Generator) (k : Nat) :
    (g.after k).state.toNat ≡
      g.state.toNat + (∑ i ∈ Finset.range k, multiplier.toNat ^ i) * g.stride [MOD 2 ^ 64] := by
  induction k with
  | zero => simp [Nat.ModEq]
  | succ k ih =>
      calc (g.after (k + 1)).state.toNat
          ≡ (g.after k).state.toNat * multiplier.toNat + g.increment.toNat [MOD 2 ^ 64] := by
            rw [after_succ, advance, UInt64.toNat_add, UInt64.toNat_mul, increment_after]
            exact (Nat.mod_modEq _ _).trans ((Nat.mod_modEq _ _).add_right _)
        _ ≡ (g.state.toNat + (∑ i ∈ Finset.range k, multiplier.toNat ^ i) * g.stride) *
              multiplier.toNat + g.increment.toNat [MOD 2 ^ 64] :=
            (ih.mul_right _).add_right _
        _ = g.state.toNat + (∑ i ∈ Finset.range (k + 1), multiplier.toNat ^ i) * g.stride := by
            rw [geom_sum_succ, stride, multiplier_eq]
            ring

/-! ## Return -/

/-- The sum of the powers of the multiplier is divisible by the powers of two that divide the number
of its terms. -/
theorem two_pow_dvd_sum_iff (e k : Nat) :
    2 ^ e ∣ ∑ i ∈ Finset.range k, multiplier.toNat ^ i ↔ 2 ^ e ∣ k := by
  have hFour : (4 : ℤ) ∣ multiplier.toNat - 1 := ⟨quarter, by rw [multiplier_eq]; push_cast; ring⟩
  have hOdd : ¬(2 : ℤ) ∣ multiplier.toNat := by decide
  have hFinite : FiniteMultiplicity 2 ((multiplier.toNat : ℤ) - 1) :=
    Int.finiteMultiplicity_iff.mpr ⟨by decide, by decide⟩
  -- the sum times `m - 1` is `m ^ k - 1`, which has the twos of `m - 1` and those of `k`
  have hTwos : emultiplicity 2 (∑ i ∈ Finset.range k, (multiplier.toNat : ℤ) ^ i) =
      emultiplicity 2 (k : ℤ) := by
    have hPower := Int.two_pow_sub_pow' k hFour hOdd
    rw [one_pow, ← geom_sum_mul, emultiplicity_mul Int.prime_two, add_comm] at hPower
    exact (WithTop.add_left_inj (finiteMultiplicity_iff_emultiplicity_ne_top.mp hFinite)).mp hPower
  rw [← Int.natCast_dvd_natCast, ← Int.natCast_dvd_natCast]
  push_cast
  rw [pow_dvd_iff_le_emultiplicity, pow_dvd_iff_le_emultiplicity, hTwos]

/-- With an odd increment, a generator returns after the multiples of `2 ^ 64` draws only. -/
theorem after_eq_self_iff {g : Generator} (hOdd : g.IsOdd) (k : Nat) :
    g.after k = g ↔ 2 ^ 64 ∣ k := by
  have hMoved := state_after g k
  have hReturned : (g.after k).state.toNat = g.state.toNat ↔
      (g.after k).state.toNat ≡ g.state.toNat [MOD 2 ^ 64] :=
    ⟨fun hSame => hSame ▸ Nat.ModEq.refl _,
      fun hSame => hSame.eq_of_lt_of_lt (UInt64.toNat_lt _) (UInt64.toNat_lt _)⟩
  calc g.after k = g
      ↔ (g.after k).state.toNat ≡ g.state.toNat [MOD 2 ^ 64] :=
        (after_eq_iff_state g k).trans hReturned
    _ ↔ g.state.toNat + (∑ i ∈ Finset.range k, multiplier.toNat ^ i) * g.stride ≡
          g.state.toNat [MOD 2 ^ 64] := ⟨hMoved.symm.trans, hMoved.trans⟩
    _ ↔ 2 ^ 64 ∣ (∑ i ∈ Finset.range k, multiplier.toNat ^ i) * g.stride := Nat.add_modEq_left_iff
    _ ↔ 2 ^ 64 ∣ ∑ i ∈ Finset.range k, multiplier.toNat ^ i := hOdd.stride.dvd_mul_right
    _ ↔ 2 ^ 64 ∣ k := two_pow_dvd_sum_iff 64 k

end StepSampling.Generator
