import Mathlib.Data.Finset.Card
import Mathlib.Data.Finset.Prod
import StepSampling.Proofs.Generator.Period

/-!
# The words that a generator draws

The output of a 64-bit word says half of what there is to know of it.  Its five high bits select the
rotation, so they and the output give the folded word back; a bit of the folded word is a bit of the
word crossed with the one eighteen places above it, so the high bits give the 32 middle ones, from the
top down; and nothing is said of the 27 low bits.  The output together with the five high and the 27
low bits therefore names the word.

In `2 ^ 64` draws the generator passes every word once, and to each output belong as many words as
there are high and low bits: every 32-bit word is drawn `2 ^ 32` times.
-/

namespace StepSampling.Generator

/-- The word that is drawn behind a number of others. -/
def drawn (g : Generator) (draws : Nat) : UInt32 := (g.after draws).next.1

/-! ## What the output says of a word -/

/-- The middle of a word, folded by a shift. -/
def folded (word : UInt64) : UInt32 := (((word >>> 18) ^^^ word) >>> 27).toUInt32

/-- How far the folded word is rotated. -/
def turn (word : UInt64) : UInt32 := (word >>> 59).toUInt32

theorem output_eq (word : UInt64) : output word = rotateRight (folded word) (turn word) := rfl

theorem toNat_turn (word : UInt64) : (turn word).toNat = word.toNat / 2 ^ 59 := by
  have hWord := word.toNat_lt
  rw [turn, UInt64.toNat_toUInt32, UInt64.toNat_shiftRight, Nat.shiftRight_eq_div_pow]
  show word.toNat / 2 ^ 59 % 2 ^ 32 = word.toNat / 2 ^ 59
  omega

theorem testBit_folded (word : UInt64) {i : Nat} (hBit : i < 32) :
    (folded word).toNat.testBit i = (word.toNat.testBit (i + 45) ^^ word.toNat.testBit (i + 27)) := by
  rw [folded, UInt64.toNat_toUInt32, UInt64.toNat_shiftRight, UInt64.toNat_xor,
    UInt64.toNat_shiftRight, Nat.testBit_mod_two_pow, Nat.testBit_shiftRight, Nat.testBit_xor,
    Nat.testBit_shiftRight, decide_eq_true hBit, Bool.true_and]
  show (word.toNat.testBit (18 + (27 + i)) ^^ word.toNat.testBit (27 + i)) = _
  rw [← Nat.add_assoc, Nat.add_comm i, Nat.add_comm i]

/-- The bits of a rotated word, those that leave on the right coming back on the left. -/
theorem testBit_rotateRight (w : UInt32) {r : UInt32} (hTurn : r.toNat < 32) {i : Nat}
    (hBit : i < 32) :
    (rotateRight w r).toNat.testBit i =
      (w.toNat.testBit (r.toNat + i) || decide ((32 - r.toNat) % 32 ≤ i) &&
        w.toNat.testBit (i - (32 - r.toNat) % 32)) := by
  have hLeft : (32 - r).toNat % 32 = (32 - r.toNat) % 32 := by
    rw [UInt32.toNat_sub_of_le _ _ (UInt32.le_iff_toNat_le.mpr hTurn.le)]
    rfl
  rw [rotateRight, UInt32.toNat_or, Nat.testBit_or, UInt32.toNat_shiftRight,
    UInt32.toNat_shiftLeft, hLeft, Nat.testBit_mod_two_pow, Nat.testBit_shiftRight,
    Nat.testBit_shiftLeft, Nat.mod_eq_of_lt hTurn, decide_eq_true hBit, Bool.true_and]

theorem testBit_of_ge (w : UInt32) {i : Nat} (hBeyond : 32 ≤ i) : w.toNat.testBit i = false :=
  Nat.testBit_lt_two_pow (w.toNat_lt.trans_le (Nat.pow_le_pow_right (by decide) hBeyond))

/-- Every bit of a word stands somewhere in the rotated word. -/
theorem exists_testBit_rotateRight {r : UInt32} (hTurn : r.toNat < 32) {i : Nat} (hBit : i < 32) :
    ∃ j, ∀ w : UInt32, (rotateRight w r).toNat.testBit j = w.toNat.testBit i := by
  rcases Nat.lt_or_ge i r.toNat with hWrapped | hKept
  · refine ⟨i + (32 - r.toNat), fun w => ?_⟩
    rw [testBit_rotateRight w hTurn (by omega), testBit_of_ge w (by omega),
      Nat.mod_eq_of_lt (by omega : 32 - r.toNat < 32), decide_eq_true (by omega), Nat.add_sub_cancel]
    rfl
  · refine ⟨i - r.toNat, fun w => ?_⟩
    rw [testBit_rotateRight w hTurn (by omega), Nat.add_sub_cancel' hKept]
    by_cases hStill : r.toNat = 0
    · simp [hStill]
    · rw [Nat.mod_eq_of_lt (by omega : 32 - r.toNat < 32), decide_eq_false (by omega),
        Bool.false_and, Bool.or_false]

theorem rotateRight_injective {w x r : UInt32} (hTurn : r.toNat < 32)
    (hSame : rotateRight w r = rotateRight x r) : w = x := by
  apply UInt32.toNat_inj.mp
  apply Nat.eq_of_testBit_eq
  intro i
  rcases Nat.lt_or_ge i 32 with hBit | hBeyond
  · obtain ⟨j, hPlace⟩ := exists_testBit_rotateRight hTurn hBit
    rw [← hPlace w, ← hPlace x, hSame]
  · rw [testBit_of_ge w hBeyond, testBit_of_ge x hBeyond]

/-- A word is named by its output together with its five high and its 27 low bits. -/
theorem eq_of_output {s t : UInt64} (hOutput : output s = output t)
    (hHigh : s.toNat / 2 ^ 59 = t.toNat / 2 ^ 59) (hLow : s.toNat % 2 ^ 27 = t.toNat % 2 ^ 27) :
    s = t := by
  have hTurn : turn s = turn t := by
    rw [← UInt32.toNat_inj, toNat_turn, toNat_turn, hHigh]
  have hFolded : folded s = folded t := by
    rw [output_eq, output_eq, hTurn] at hOutput
    refine rotateRight_injective ?_ hOutput
    have hWord := t.toNat_lt
    rw [toNat_turn]
    omega
  -- a bit of the middle is fixed by the folded word and the bit eighteen places above it
  have hMiddle : ∀ j, 27 ≤ j → j < 59 → s.toNat.testBit (j + 18) = t.toNat.testBit (j + 18) →
      s.toNat.testBit j = t.toNat.testBit j := by
    intro j hStart hEnd hAbove
    obtain ⟨i, rfl⟩ := Nat.exists_eq_add_of_le' hStart
    have hBit := testBit_folded s (i := i) (by omega)
    rw [hFolded, testBit_folded t (by omega), hAbove] at hBit
    exact (Bool.xor_right_inj.mp hBit).symm
  have hTop : ∀ j, 59 ≤ j → s.toNat.testBit j = t.toNat.testBit j := by
    intro j hj
    obtain ⟨i, rfl⟩ := Nat.exists_eq_add_of_le' hj
    rw [← Nat.testBit_div_two_pow, hHigh, Nat.testBit_div_two_pow]
  have hUpper : ∀ j, 41 ≤ j → s.toNat.testBit j = t.toNat.testBit j := by
    intro j hj
    rcases Nat.lt_or_ge j 59 with hInside | hOutside
    · exact hMiddle j (by omega) hInside (hTop _ (by omega))
    · exact hTop j hOutside
  apply UInt64.toNat_inj.mp
  apply Nat.eq_of_testBit_eq
  intro j
  rcases Nat.lt_or_ge j 27 with hBelow | hAbove
  · have hBit := congrArg (·.testBit j) hLow
    simp only [Nat.testBit_mod_two_pow, hBelow, decide_true, Bool.true_and] at hBit
    exact hBit
  · rcases Nat.lt_or_ge j 41 with hInside | hOutside
    · exact hMiddle j hAbove (by omega) (hUpper _ (by omega))
    · exact hUpper j hOutside

/-! ## How often a word is drawn -/

/-- If two marks name the elements of a set, and there are no more pairs of marks than elements, then
every first mark is borne by as many elements as there are second marks. -/
theorem card_filter_of_named {α β γ : Type} [DecidableEq β] {s : Finset α} {t : Finset β}
    {r : Finset γ} {f : α → β} {k : α → γ} (hf : ∀ a ∈ s, f a ∈ t) (hk : ∀ a ∈ s, k a ∈ r)
    (hNamed : ∀ a ∈ s, ∀ b ∈ s, f a = f b → k a = k b → a = b) (hCard : t.card * r.card ≤ s.card)
    {b : β} (hb : b ∈ t) : (s.filter (f · = b)).card = r.card := by
  have hAll : Set.SurjOn (fun a => (f a, k a)) s (t ×ˢ r : Finset (β × γ)) := by
    apply Finset.surjOn_of_injOn_of_card_le
    · intro a ha
      exact Finset.mem_coe.mpr (Finset.mem_product.mpr ⟨hf a ha, hk a ha⟩)
    · intro a ha a' ha' hPair
      obtain ⟨hFirst, hSecond⟩ := Prod.mk.injEq _ _ _ _ ▸ hPair
      exact hNamed a ha a' ha' hFirst hSecond
    · rwa [Finset.card_product]
  apply Finset.card_nbij k
  · intro a ha
    exact hk a (Finset.mem_of_mem_filter a ha)
  · intro a ha a' ha' hSecond
    obtain ⟨hIn, hFirst⟩ := Finset.mem_filter.mp (Finset.mem_coe.mp ha)
    obtain ⟨hIn', hFirst'⟩ := Finset.mem_filter.mp (Finset.mem_coe.mp ha')
    exact hNamed a hIn a' hIn' (hFirst.trans hFirst'.symm) hSecond
  · intro c hc
    have hPair : (b, c) ∈ t ×ˢ r := Finset.mem_product.mpr ⟨hb, Finset.mem_coe.mp hc⟩
    obtain ⟨a, ha, hMarks⟩ := hAll (Finset.mem_coe.mpr hPair)
    obtain ⟨hFirst, hSecond⟩ := Prod.mk.inj hMarks
    exact ⟨a, Finset.mem_coe.mpr (Finset.mem_filter.mpr ⟨Finset.mem_coe.mp ha, hFirst⟩), hSecond⟩

section

variable {g : Generator} (hOdd : g.IsOdd)

include hOdd

/-- Along `2 ^ 64` draws no word of the state comes twice. -/
theorem eq_of_state_after {i j : Nat} (hi : i < 2 ^ 64) (hj : j < 2 ^ 64)
    (hSame : (g.after i).state = (g.after j).state) : i = j := by
  wlog hLe : i ≤ j generalizing i j
  · exact (this hj hi hSame.symm (by omega)).symm
  obtain ⟨k, rfl⟩ := Nat.exists_eq_add_of_le hLe
  have hReturn : (g.after i).after k = g.after i := by
    rw [after_eq_iff_state, ← after_add, hSame]
  have hDvd := (after_eq_self_iff (hOdd.after i) k).mp hReturn
  have hZero : k = 0 := Nat.eq_zero_of_dvd_of_lt hDvd (by omega)
  omega

/-- In `2 ^ 64` draws every 32-bit word is drawn `2 ^ 32` times. -/
theorem card_drawn (w : UInt32) :
    ((Finset.range (2 ^ 64)).filter fun i => g.drawn i = w).card = 2 ^ 32 := by
  have hCount := card_filter_of_named (s := Finset.range (2 ^ 64)) (t := Finset.range (2 ^ 32))
    (r := Finset.range (2 ^ 5) ×ˢ Finset.range (2 ^ 27)) (f := fun i => (g.drawn i).toNat)
    (k := fun i => ((g.after i).state.toNat / 2 ^ 59, (g.after i).state.toNat % 2 ^ 27))
    (b := w.toNat) ?_ ?_ ?_ ?_ ?_
  · simp only [UInt32.toNat_inj, Finset.card_product, Finset.card_range] at hCount
    exact hCount
  · intro i _
    exact Finset.mem_range.mpr (UInt32.toNat_lt _)
  · intro i _
    have hWord := (g.after i).state.toNat_lt
    refine Finset.mem_product.mpr ⟨Finset.mem_range.mpr ?_, Finset.mem_range.mpr ?_⟩
    · show (g.after i).state.toNat / 2 ^ 59 < 2 ^ 5
      omega
    · exact Nat.mod_lt _ (by decide)
  · intro i hi j hj hWords hBits
    obtain ⟨hHigh, hLow⟩ := Prod.mk.inj hBits
    exact eq_of_state_after hOdd (Finset.mem_range.mp hi) (Finset.mem_range.mp hj)
      (eq_of_output (UInt32.toNat_inj.mp hWords) hHigh hLow)
  · simp only [Finset.card_product, Finset.card_range]
    exact le_rfl
  · exact Finset.mem_range.mpr (UInt32.toNat_lt _)

end

/-- **Full period and equidistribution.**  A generator, seeded or standard, is back where it was after
the multiples of `2 ^ 64` draws and after no others, and among any `2 ^ 64` words that it draws in a
row each 32-bit word occurs exactly `2 ^ 32` times. -/
theorem full_period (g : Generator) (hBuilt : g = standard ∨ ∃ seed, g = ofSeed seed) :
    (∀ k, g.after k = g ↔ 2 ^ 64 ∣ k) ∧
      ∀ (start : Nat) (w : UInt32),
        ((Finset.range (2 ^ 64)).filter fun i => g.drawn (start + i) = w).card = 2 ^ 32 := by
  have hOdd : g.IsOdd := by
    rcases hBuilt with rfl | ⟨seed, rfl⟩
    · exact isOdd_standard
    · exact isOdd_ofSeed seed
  refine ⟨after_eq_self_iff hOdd, ?_⟩
  intro start w
  have hWindow : ∀ i, (g.after start).drawn i = g.drawn (start + i) := by
    intro i
    rw [drawn, drawn, after_add]
  simp only [← hWindow]
  exact card_drawn (hOdd.after start) w

/-- The generator of the greatest seed. -/
theorem full_period_greatest :
    (ofSeed 0xffffffffffffffff).after (2 ^ 63) ≠ ofSeed 0xffffffffffffffff ∧
      (ofSeed 0xffffffffffffffff).after (2 ^ 64) = ofSeed 0xffffffffffffffff ∧
      ((Finset.range (2 ^ 64)).filter fun i =>
        (ofSeed 0xffffffffffffffff).drawn (1 + i) = 0).card = 2 ^ 32 := by
  obtain ⟨hReturns, hWords⟩ := full_period (ofSeed 0xffffffffffffffff) (.inr ⟨_, rfl⟩)
  refine ⟨?_, (hReturns _).mpr (dvd_refl _), hWords 1 0⟩
  rw [ne_eq, hReturns]
  decide

end StepSampling.Generator
