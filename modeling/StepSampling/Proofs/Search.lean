import StepSampling.Search

/-!
# Where the bisection ends

Bisection never leaves the range it was given, whatever the predicate, so the interval that it finds
is always one of those between neighbouring entries.  It ends at a boundary: the predicate holds
just before the index that is returned and fails at it, as far as both lie in the range.  For
predicates that stay false once they have failed this boundary is the only one, and it moves up when
the predicate holds at more indices.
-/

namespace StepSampling.Search

/-- The middle lies inside the range. -/
theorem middle_range {lo hi : Nat} (hLt : lo < hi) : lo ≤ middle lo hi ∧ middle lo hi < hi := by
  unfold middle
  omega

theorem bisect_bounds (pred : Nat → Bool) (lo hi : Nat) (hLe : lo ≤ hi) :
    lo ≤ bisect pred lo hi ∧ bisect pred lo hi ≤ hi := by
  fun_induction bisect pred lo hi with
  | case1 lo hi hLt hTrue ih =>
      have hMiddle := middle_range hLt
      obtain ⟨hLow, hHigh⟩ := ih (by omega)
      exact ⟨by omega, hHigh⟩
  | case2 lo hi hLt hFalse ih =>
      have hMiddle := middle_range hLt
      obtain ⟨hLow, hHigh⟩ := ih (by omega)
      exact ⟨hLow, by omega⟩
  | case3 lo hi hDone => exact ⟨Nat.le_refl lo, hLe⟩

/-- The predicate holds before the end of the bisection and fails at it. -/
theorem bisect_boundary (pred : Nat → Bool) (lo hi : Nat) :
    (bisect pred lo hi = lo ∨ pred (bisect pred lo hi - 1) = true) ∧
      (hi ≤ bisect pred lo hi ∨ pred (bisect pred lo hi) = false) := by
  fun_induction bisect pred lo hi with
  | case1 lo hi hLt hTrue ih =>
      obtain ⟨hBefore, hAt⟩ := ih
      refine ⟨Or.inr ?_, hAt⟩
      rcases hBefore with hStart | hBefore
      · rw [hStart, Nat.add_sub_cancel]
        exact hTrue
      · exact hBefore
  | case2 lo hi hLt hFalse ih =>
      obtain ⟨hBefore, hAt⟩ := ih
      refine ⟨hBefore, Or.inr ?_⟩
      rcases hAt with hEnd | hAt
      · have hMiddle : lo ≤ middle lo hi := by
          unfold middle
          omega
        have hBounds := bisect_bounds pred lo (middle lo hi) hMiddle
        rw [show bisect pred lo (middle lo hi) = middle lo hi by omega]
        simpa using hFalse
      · exact hAt
  | case3 lo hi hDone => exact ⟨Or.inl rfl, Or.inl (by omega)⟩

/-- The interval that is found starts just before the end of the bisection. -/
theorem interval_eq_min {size : Nat} (pred : Nat → Bool) (hSize : 2 ≤ size) :
    interval size pred = .ok (min (bisect pred 0 size - 1) (size - 2)) := by
  rw [interval, if_neg (by omega), upperBound]
  generalize bisect pred 0 size = stop
  by_cases hPos : 0 < stop
  · have hClamp : clamp (stop - 1) 0 (size - 2) = min (stop - 1) (size - 2) := by
      unfold clamp
      split
      · omega
      · split <;> omega
    simp [hPos, hClamp]
  · simp [show stop = 0 by omega]

/-- Among at least two entries an interval is always found. -/
theorem interval_eq_ok (size : Nat) (pred : Nat → Bool) (hSize : 2 ≤ size) :
    ∃ k, interval size pred = .ok k ∧ k + 2 ≤ size :=
  ⟨_, interval_eq_min pred hSize, by omega⟩

/-- A predicate that holds nowhere leads to the first interval. -/
theorem interval_of_false {size : Nat} {pred : Nat → Bool} (hSize : 2 ≤ size)
    (hNowhere : ∀ i, pred i = false) : interval size pred = .ok 0 := by
  have hStart : bisect pred 0 size = 0 := by
    rcases (bisect_boundary pred 0 size).1 with hStart | hHolds
    · exact hStart
    · rw [hNowhere] at hHolds
      cases hHolds
  rw [interval_eq_min pred hSize, hStart, Nat.min_eq_left (by omega)]

/-- A predicate that holds at every entry leads to the last interval. -/
theorem interval_of_true {size : Nat} {pred : Nat → Bool} (hSize : 2 ≤ size)
    (hEverywhere : ∀ i < size, pred i = true) : interval size pred = .ok (size - 2) := by
  have hEnd : size ≤ bisect pred 0 size := by
    rcases (bisect_boundary pred 0 size).2 with hEnd | hFails
    · exact hEnd
    · apply Nat.le_of_not_lt
      intro hBefore
      rw [hEverywhere _ hBefore] at hFails
      cases hFails
  rw [interval_eq_min pred hSize, Nat.min_eq_right (by omega)]

/-- A predicate that holds at more indices, and fails for good once it fails, is followed further.
-/
theorem bisect_mono {p q : Nat → Bool} {lo hi : Nat} (hLe : lo ≤ hi)
    (hMore : ∀ i < hi, p i = true → q i = true)
    (hFalling : ∀ i j, i ≤ j → j < hi → q j = true → q i = true) :
    bisect p lo hi ≤ bisect q lo hi := by
  apply Nat.le_of_not_lt
  intro hNot
  obtain ⟨_, hEnd⟩ := bisect_bounds p lo hi hLe
  obtain ⟨hStart, _⟩ := bisect_bounds q lo hi hLe
  have hFails := (bisect_boundary q lo hi).2.resolve_left (by omega)
  have hHolds := (bisect_boundary p lo hi).1.resolve_left (by omega)
  have hLast := hMore _ (by omega) hHolds
  rw [hFalling _ _ (by omega) (by omega) hLast] at hFails
  cases hFails

/-- The interval that is found moves up with the predicate. -/
theorem interval_mono {p q : Nat → Bool} {size k l : Nat}
    (hMore : ∀ i < size, p i = true → q i = true)
    (hFalling : ∀ i j, i ≤ j → j < size → q j = true → q i = true)
    (hp : interval size p = .ok k) (hq : interval size q = .ok l) : k ≤ l := by
  by_cases hSize : size < 2
  · rw [interval, if_pos hSize] at hp
    cases hp
  · rw [interval_eq_min p (by omega), Except.ok.injEq] at hp
    rw [interval_eq_min q (by omega), Except.ok.injEq] at hq
    have hStop := bisect_mono (Nat.zero_le size) hMore hFalling
    omega

/-- A predicate that holds at the first entry and fails at the last one changes over the interval
that is found. -/
theorem interval_brackets {size k : Nat} {pred : Nat → Bool} (hFirst : pred 0 = true)
    (hLast : pred (size - 1) = false) (hFound : interval size pred = .ok k) :
    pred k = true ∧ pred (k + 1) = false := by
  by_cases hSize : size < 2
  · rw [interval, if_pos hSize] at hFound
    cases hFound
  · rw [interval_eq_min pred (by omega), Except.ok.injEq] at hFound
    obtain ⟨_, hEnd⟩ := bisect_bounds pred 0 size (Nat.zero_le size)
    obtain ⟨hBefore, hAt⟩ := bisect_boundary pred 0 size
    generalize bisect pred 0 size = stop at hEnd hBefore hAt hFound
    -- the bisection ends neither at the first entry nor behind the last one
    have hPos : stop ≠ 0 := by
      rintro rfl
      rcases hAt with hEmpty | hFails
      · omega
      · rw [hFirst] at hFails
        cases hFails
    have hHolds : pred (stop - 1) = true := hBefore.resolve_left hPos
    have hInside : stop < size := by
      apply Nat.lt_of_le_of_ne hEnd
      rintro rfl
      rw [hLast] at hHolds
      cases hHolds
    have hFails : pred stop = false := hAt.resolve_left (by omega)
    obtain rfl : stop - 1 = k := by omega
    rw [Nat.sub_add_cancel (by omega)]
    exact ⟨hHolds, hFails⟩

/-! ## Predicates that can break off -/

/-- Where the predicate is there on the whole range, bisection does not break off. -/
theorem bisectM_eq_ok {pred : Nat → Except Fault Bool} {p : Nat → Bool} {lo hi : Nat}
    (hThere : ∀ i, lo ≤ i → i < hi → pred i = .ok (p i)) :
    bisectM pred lo hi = .ok (bisect p lo hi) := by
  fun_induction bisect p lo hi with
  | case1 lo hi hLt hTrue ih =>
      obtain ⟨hLow, hHigh⟩ := middle_range hLt
      rw [bisectM, if_pos hLt, hThere _ hLow hHigh, hTrue]
      exact ih fun i hi => hThere i (by omega)
  | case2 lo hi hLt hFalse ih =>
      obtain ⟨hLow, hHigh⟩ := middle_range hLt
      rw [bisectM, if_pos hLt, hThere _ hLow hHigh, Bool.eq_false_iff.mpr hFalse]
      exact ih fun i hi hMiddle => hThere i hi (by omega)
  | case3 lo hi hDone => rw [bisectM, if_neg hDone]

/-- Where the predicate is there for every entry, the search for an interval does not break off. -/
theorem intervalM_eq {pred : Nat → Except Fault Bool} {p : Nat → Bool} {size : Nat}
    (hThere : ∀ i < size, pred i = .ok (p i)) : intervalM size pred = interval size p := by
  have hStop : bisectM pred 0 size = .ok (bisect p 0 size) := bisectM_eq_ok fun i _ hi => hThere i hi
  rw [intervalM, upperBoundM, hStop, interval, upperBound]
  by_cases hMoved : 0 < bisect p 0 size
  · simp only [if_pos hMoved]
  · simp only [if_neg hMoved]

end StepSampling.Search
