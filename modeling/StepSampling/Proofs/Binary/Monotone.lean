import StepSampling.Ordering
import StepSampling.Proofs.Binary.Nonnegative

/-!
# Operations that keep the order

Subtracting a finite number and dividing by a positive one keep the order of all numbers, the
infinities included, and so do the choices between a number and fixed bounds.  Rounding is monotone,
which settles the finite numbers; an infinity stays where it is, and nothing lies beyond it.
-/

namespace StepSampling

namespace Binary

variable {F : Format} {x y z : Binary F}

theorem key_of_infinite (hNumber : x.isNaN = false) (hInfinite : ¬x.isFinite = true) :
    x.key = F.top ∨ x.key = -F.top := by
  have hTop := natAbs_key_le_top x
  have hReached : F.top ≤ x.key.natAbs := by
    by_contra hNot
    exact hInfinite ((isFinite_iff x).mpr ⟨hNumber, by omega⟩)
  omega

/-- An operation that keeps the order of the finite numbers and leaves the infinities in their
places keeps the order of all numbers. -/
theorem mono_of_finite {f : Binary F → Binary F}
    (hNumber : ∀ a, a.isNaN = false → (f a).isNaN = false)
    (hInfinite : ∀ a, a.isNaN = false → ¬a.isFinite = true → f a = a)
    (hFinite : ∀ a b, a.isFinite = true → b.isFinite = true → a ≤ b → (f a).value ≤ (f b).value)
    (hLe : x ≤ y) : f x ≤ f y := by
  obtain ⟨hx, hy, hKey⟩ := hLe
  refine ⟨hNumber x hx, hNumber y hy, ?_⟩
  have hHigh := key_le_top (f x)
  have hLow := neg_top_le_key (f y)
  by_cases hxFinite : x.isFinite = true
  · by_cases hyFinite : y.isFinite = true
    · exact value_le_iff_key.mp (hFinite x y hxFinite hyFinite ⟨hx, hy, hKey⟩)
    · have hBound := ((isFinite_iff x).mp hxFinite).2
      rw [hInfinite y hy hyFinite]
      rcases key_of_infinite hy hyFinite with hTop | hBottom <;> omega
  · have hBound := neg_top_le_key y
    rw [hInfinite x hx hxFinite] at hHigh ⊢
    rcases key_of_infinite hx hxFinite with hTop | hBottom
    · -- a number that is not below positive infinity is that infinity
      have hyTop := key_le_top y
      have hyInfinite : ¬y.isFinite = true := by
        rw [isFinite_iff]
        omega
      rw [hInfinite y hy hyInfinite]
      exact hKey
    · omega

theorem sub_of_infinite (hNumber : x.isNaN = false) (hInfinite : ¬x.isFinite = true)
    (hFinite : z.isFinite = true) : x - z = x :=
  add_of_infinite hNumber hInfinite (by rwa [isFinite_neg])

/-- Subtracting a finite number keeps the order. -/
theorem sub_mono (hLe : x ≤ y) (hz : z.isFinite = true) : x - z ≤ y - z := by
  apply mono_of_finite (f := (· - z)) (fun a ha => isNaN_sub a z ha hz)
    (fun a ha hInfinite => sub_of_infinite ha hInfinite hz) ?_ hLe
  intro a b ha hb hOrder
  exact (sub_rounds a z ha hz).value_mono (sub_rounds b z hb hz)
    (sub_le_sub_right (value_le_of_le hOrder) _)

theorem div_of_infinite (hNumber : x.isNaN = false) (hInfinite : ¬x.isFinite = true)
    (hFinite : z.isFinite = true) (hPos : 0 < z.value) : x / z = x := by
  match x, z with
  | .nan, _ => cases hNumber
  | .signed _ _, .nan => cases hFinite
  | .signed s ⟨code, hCode⟩, .signed t b =>
      obtain rfl : t = false := negative_of_pos hPos
      obtain rfl : code = F.top := by
        simpa [isFinite, Magnitude.isInfinite] using hInfinite
      have hb : b.isInfinite = false := by simpa [isFinite] using hFinite
      have hTop : (⟨F.top, hCode⟩ : Magnitude F).isInfinite = true := beq_self_eq_true F.top
      show div (.signed s ⟨F.top, hCode⟩) (.signed false b) = _
      rw [div, if_pos hTop, hb]
      cases s <;> rfl

/-- Dividing by a positive number keeps the order, also that of the infinities. -/
theorem div_le_div (hLe : x ≤ y) (hz : z.isFinite = true) (hPos : 0 < z.value) : x / z ≤ y / z := by
  apply mono_of_finite (f := (· / z)) (fun a ha => isNaN_div a z ha hz hPos.ne')
    (fun a ha hInfinite => div_of_infinite ha hInfinite hz hPos) ?_ hLe
  intro a b ha hb hOrder
  exact value_le_of_le (div_mono hOrder ha hb hz hPos)

end Binary

/-! ## Choices -/

section

variable {F : Format} {x y low high : Binary F}

theorem lesser_mono (hLe : x ≤ y) (hHigh : high.isNaN = false) :
    lesser x high ≤ lesser y high := by
  unfold lesser
  split
  · next hx =>
    split
    · exact hLe
    · exact ⟨hx.1, hx.2.1, hx.2.2.le⟩
  · next hx =>
    have hAbove := Binary.le_trans (Binary.le_of_not_lt hLe.1 hHigh hx) hLe
    split
    · exact hAbove
    · exact Binary.le_refl hHigh

theorem clamp_mono (hBounds : low ≤ high) (hLe : x ≤ y) : clamp x low high ≤ clamp y low high := by
  obtain ⟨hLow, hHigh, hOrder⟩ := hBounds
  obtain ⟨hx, hy, hKey⟩ := hLe
  -- what the failed comparisons say about the keys
  have hNotBelow : ∀ a : Binary F, a.isNaN = false → ¬a < low → low.key ≤ a.key :=
    fun a ha hNot => (Binary.le_of_not_lt ha hLow hNot).2.2
  have hNotAbove : ∀ a : Binary F, a.isNaN = false → ¬high < a → a.key ≤ high.key :=
    fun a ha hNot => (Binary.le_of_not_lt hHigh ha hNot).2.2
  unfold clamp
  split
  · split
    · exact Binary.le_refl hLow
    · next hyLow =>
      split
      · exact ⟨hLow, hHigh, hOrder⟩
      · exact ⟨hLow, hy, hNotBelow y hy hyLow⟩
  · next hxLow =>
    have hxKey := hNotBelow x hx hxLow
    have hyLow : ¬y < low := fun hBelow => absurd hBelow.2.2 (by omega)
    rw [if_neg hyLow]
    split
    · next hxHigh =>
      have hyHigh : high < y := ⟨hHigh, hy, Int.lt_of_lt_of_le hxHigh.2.2 hKey⟩
      rw [if_pos hyHigh]
      exact Binary.le_refl hHigh
    · next hxHigh =>
      split
      · exact ⟨hx, hHigh, hNotAbove x hx hxHigh⟩
      · exact ⟨hx, hy, hKey⟩

end

end StepSampling
