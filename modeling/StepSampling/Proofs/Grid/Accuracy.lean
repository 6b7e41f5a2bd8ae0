import StepSampling.Proofs.Density.Drift
import StepSampling.Proofs.Grid.Queries

/-!
# How accurate the density of a grid is

The density at a point is the weight of its cell over the integral of the grid.  That integral is a
running sum of the integrals of the rows, and each of these is a running sum of weights: the first
drifts from the mean of the row integrals by a rounding for each row, a row integral from the mean of
its weights by a rounding for each column.  Summed up over the rows, the second kind of drift is at
most a rounding for each column as well, so both add up to a multiple of the number of columns and
rows.

Rows whose integral underflowed are no exception.  Each of them is off by half a unit for each column,
which is nothing against an integral of the grid that is not tiny.
-/

namespace StepSampling.GridDensity

open StepDensity (exactSum)

/-- The integrals of the rows, the weights of the marginal. -/
def rowIntegrals (d : GridDensity) : List Single := d.rows.toList.map (·.integral)

section

variable {weights : List Single} {columns rows : Nat} {d : GridDensity}
  (hBuild : build weights columns rows = .ok d)

include hBuild

theorem build_rowIntegrals : StepDensity.build (rowIntegrals d) = .ok d.marginal :=
  (build_eq_ok hBuild).2.2.2.2.2

theorem length_rowIntegrals : (rowIntegrals d).length = rows := by
  rw [rowIntegrals, List.length_map, Array.length_toList, (build_eq_ok hBuild).2.2.2.1]

/-- The integral of a row against the mean of its weights. -/
theorem rowIntegral_error (hColumns : columns ≤ 2 ^ 24) {v : Nat} (hv : v < rows) :
    ∃ i, (rowIntegrals d)[v]? = some i ∧
      |i.value - exactSum ((weights.drop (v * columns)).take columns) columns / columns| ≤
        columns / 2 ^ 24 * i.value +
          1 / 2 ^ 24 * (exactSum ((weights.drop (v * columns)).take columns) columns / columns) +
          columns / 2 ^ 150 := by
  obtain ⟨_, _, hSize, _, hRows, _⟩ := build_eq_ok hBuild
  obtain ⟨row, hEntry, hRowBuild⟩ := hRows v hv
  refine ⟨row.integral, ?_, ?_⟩
  · rw [rowIntegrals, List.getElem?_map, Array.getElem?_toList, hEntry, Option.map_some]
  · have hStretch := length_stretch hSize hv
    obtain ⟨hNonempty, hWeights, _, _, hFinite, _⟩ := StepDensity.build_eq_ok hRowBuild
    have hError := StepDensity.sum_error hNonempty (by omega) hWeights (by omega)
      (StepDensity.getElem?_sums_integral hRowBuild) hFinite le_rfl
    rwa [hStretch] at hError

/-- The sum of the row integrals against the sum of all weights, over the number of columns. -/
theorem rowIntegrals_error (hColumns : columns ≤ 2 ^ 24) :
    |exactSum (rowIntegrals d) rows - exactSum weights weights.length / columns| ≤
      columns / 2 ^ 24 * exactSum (rowIntegrals d) rows +
        1 / 2 ^ 24 * (exactSum weights weights.length / columns) + rows * (columns / 2 ^ 150) := by
  obtain ⟨_, _, hSize, _, _, _⟩ := build_eq_ok hBuild
  have hSteps := abs_sub_le_of_steps (f := exactSum (rowIntegrals d))
    (g := fun v => exactSum weights (v * columns) / columns)
    (e := fun v => columns / 2 ^ 24 * exactSum (rowIntegrals d) v +
      1 / 2 ^ 24 * (exactSum weights (v * columns) / columns) + v * (columns / 2 ^ 150))
    (n := rows) (by simp) ?_ rows le_rfl
  · rwa [Nat.mul_comm rows, hSize] at hSteps
  · intro v hv
    obtain ⟨i, hEntry, hError⟩ := rowIntegral_error hBuild hColumns hv
    rw [StepDensity.exactSum_succ hEntry, Nat.succ_mul, StepDensity.exactSum_add,
      add_sub_cancel_left, add_div, add_sub_cancel_left]
    refine hError.trans (le_of_eq ?_)
    push_cast
    ring

end

section

variable {weights : List Single} {columns rows : Nat} {d : GridDensity}
  (hColumns : columns ≤ 2 ^ 19) (hRows : rows ≤ 2 ^ 19)
  (hBuild : build weights columns rows = .ok d) (hLarge : 1 / 2 ^ 100 ≤ d.integral.value)

include hColumns hRows hBuild hLarge

/-- The integral of the grid against the exact mean of all weights. -/
theorem integral_error :
    |d.integral.value - exactSum weights weights.length / (columns * rows)| ≤
      (2 * columns + rows + 6) / 2 ^ 24 * d.integral.value := by
  obtain ⟨hWide, hHigh, _, _, _, _⟩ := build_eq_ok hBuild
  have hLength := length_rowIntegrals hBuild
  have hMarginal := build_rowIntegrals hBuild
  have hPos : 0 < d.integral.value := lt_of_lt_of_le (by positivity) hLarge
  have hRowsPos : (0 : ℚ) < rows := Nat.cast_pos.mpr hHigh
  have hColumnsCast : (columns : ℚ) ≤ 2 ^ 19 := by exact_mod_cast hColumns
  have hMean := StepDensity.mean_le_twice_integral (by omega) hMarginal hLarge
  have hAcross := StepDensity.sum_error_le (by omega) hMarginal hLarge
    (StepDensity.getElem?_sums_integral hMarginal)
  have hUnderflow := StepDensity.underflow_le hLarge (hColumns.trans (by norm_num))
  rw [hLength] at hMean hAcross
  -- the errors of the rows, over the number of rows
  have hAlong : |exactSum (rowIntegrals d) rows / rows -
      exactSum weights weights.length / (columns * rows)| ≤
        columns / 2 ^ 24 * (exactSum (rowIntegrals d) rows / rows) +
          1 / 2 ^ 24 * (exactSum weights weights.length / (columns * rows)) +
          columns / 2 ^ 150 := by
    have hError := rowIntegrals_error hBuild (hColumns.trans (by norm_num))
    rw [← div_div, ← sub_div, abs_div, abs_of_pos hRowsPos, div_le_iff₀ hRowsPos]
    refine hError.trans (le_of_eq ?_)
    field_simp
  change exactSum (rowIntegrals d) rows / rows ≤ 2 * d.integral.value at hMean
  change |d.integral.value - exactSum (rowIntegrals d) rows / rows| ≤
    (rows + 5 / 2) / 2 ^ 24 * d.integral.value at hAcross
  generalize exactSum (rowIntegrals d) rows / rows = mean at hMean hAcross hAlong
  generalize exactSum weights weights.length / (columns * rows) = exact at hAlong ⊢
  generalize d.integral.value = y at hPos hMean hAcross hUnderflow ⊢
  have hDrift : (columns : ℚ) / 2 ^ 24 * mean ≤ columns / 2 ^ 24 * (2 * y) := by gcongr
  have hTwice : (columns : ℚ) / 2 ^ 24 * (2 * y) ≤ 2 ^ 19 / 2 ^ 24 * (2 * y) := by gcongr
  have hExact : exact ≤ 3 * y := by linarith [(abs_le.mp hAlong).1]
  calc |y - exact| ≤ |y - mean| + |mean - exact| := abs_sub_le _ _ _
    _ ≤ (rows + 5 / 2) / 2 ^ 24 * y +
        (columns / 2 ^ 24 * (2 * y) + 1 / 2 ^ 24 * (3 * y) + 1 / 2 / 2 ^ 24 * y) := by linarith
    _ = (2 * columns + rows + 6) / 2 ^ 24 * y := by ring

/-- An integral that is not tiny comes from weights that do not all vanish. -/
theorem exactMean_pos : 0 < exactSum weights weights.length / (columns * rows) := by
  have hPos : 0 < d.integral.value := lt_of_lt_of_le (by positivity) hLarge
  have hError := (abs_le.mp (integral_error hColumns hRows hBuild hLarge)).2
  have hColumnsCast : (columns : ℚ) ≤ 2 ^ 19 := by exact_mod_cast hColumns
  have hRowsCast : (rows : ℚ) ≤ 2 ^ 19 := by exact_mod_cast hRows
  have hFactor : (2 * columns + rows + 6) / 2 ^ 24 * d.integral.value < 1 * d.integral.value := by
    gcongr
    linarith
  linarith

/-- A weight over the integral of the grid against its exact ratio to the mean. -/
theorem weight_div_error {v c : Nat} {row : StepDensity} {w : Single}
    (hRow : d.conditional v = .ok row) (hWeight : row.weights[c]? = some w) :
    (w / d.integral).isFinite = true ∧
      |(w / d.integral).value - columns * rows * w.value / exactSum weights weights.length| ≤
        (columns + rows + 2) / 2 ^ 22 *
          (columns * rows * w.value / exactSum weights weights.length) + 1 / 2 ^ 148 := by
  obtain ⟨hWide, hHigh, hSize, _, _, hMarginal⟩ := build_eq_ok hBuild
  obtain ⟨_, _, _, _, hFinite, _⟩ := StepDensity.build_eq_ok hMarginal
  obtain ⟨_, stretch, _, _, hRowBuild⟩ := exists_row_build hBuild hRow
  obtain ⟨_, hWeights, _, _, _, _⟩ := StepDensity.build_eq_ok hRowBuild
  obtain ⟨hw, hLow⟩ := w.isWeight_iff.mp
    (hWeights w (StepDensity.mem_of_getElem?_weights hRowBuild hWeight))
  have hPos : 0 < d.integral.value := lt_of_lt_of_le (by positivity) hLarge
  have hWord : weights.length < 2 ^ 64 := by
    have hCells : columns * rows ≤ 2 ^ 19 * 2 ^ 19 := Nat.mul_le_mul hColumns hRows
    omega
  have hq := weight_div_isDensity hWord hBuild hRow
    (Array.mem_toList_iff.mpr (Array.mem_of_getElem? hWeight)) hPos
  refine ⟨hq.1, ?_⟩
  have hMean := exactMean_pos hColumns hRows hBuild hLarge
  have hError := Single.div_error hw (Binary.value_nonneg_of_le hLow) hFinite hPos hMean
    (integral_error hColumns hRows hBuild hLarge) hq.1
  have hRatio : w.value / (exactSum weights weights.length / (columns * rows)) =
      columns * rows * w.value / exactSum weights weights.length := by
    rw [div_div_eq_mul_div, mul_comm]
  have hNonneg : 0 ≤ w.value / (exactSum weights weights.length / (columns * rows)) :=
    div_nonneg (Binary.value_nonneg_of_le hLow) hMean.le
  rw [hRatio] at hError hNonneg
  have hFactor : ((2 * columns + rows + 6) / 2 ^ 24 +
      1 / 2 ^ 24 * (1 + (2 * columns + rows + 6) / 2 ^ 24) : ℚ) ≤ (columns + rows + 2) / 2 ^ 22 := by
    have hColumnsOne : (1 : ℚ) ≤ columns := Nat.one_le_cast.mpr hWide
    have hRowsOne : (1 : ℚ) ≤ rows := Nat.one_le_cast.mpr hHigh
    linarith
  exact hError.trans (add_le_add (mul_le_mul_of_nonneg_right hFactor hNonneg) (by norm_num))

end

/-- **Accuracy of the density of a grid.**  With up to `2 ^ 19` columns and rows and an integral of at
least `2 ^ (-100)`, the density at every point, whatever its coordinates, is the weight of a cell over
the exact mean of all weights, up to `(columns + rows + 2) * 2 ^ (-22)` of that ratio and `2 ^ (-148)`.
It does not matter which weights or row integrals have underflowed. -/
theorem densityAt_accurate (weights : List Single) (columns rows : Nat) (d : GridDensity)
    (hColumns : columns ≤ 2 ^ 19) (hRows : rows ≤ 2 ^ 19)
    (hBuild : build weights columns rows = .ok d) (hLarge : 1 / 2 ^ 100 ≤ d.integral.value) :
    0 < exactSum weights weights.length ∧ ∀ p : Point Single, ∃ v c w q,
      Bins.bin p.y rows = .ok v ∧ Bins.bin p.x columns = .ok c ∧
      weights[v * columns + c]? = some w ∧ d.densityAt p = .ok q ∧ q.isFinite = true ∧
      |q.value - columns * rows * w.value / exactSum weights weights.length| ≤
        (columns + rows + 2) / 2 ^ 22 *
          (columns * rows * w.value / exactSum weights weights.length) + 1 / 2 ^ 148 := by
  obtain ⟨hWide, hHigh, hSize, _, _, _⟩ := build_eq_ok hBuild
  have hPos : 0 < d.integral.value := lt_of_lt_of_le (by positivity) hLarge
  have hCells : (0 : ℚ) < columns * rows :=
    mul_pos (Nat.cast_pos.mpr hWide) (Nat.cast_pos.mpr hHigh)
  refine ⟨(div_pos_iff_of_pos_right hCells).mp (exactMean_pos hColumns hRows hBuild hLarge), ?_⟩
  intro p
  have hRow : Bins.bin p.y rows = .ok (Bins.binOf p.y rows) := if_neg (by omega)
  have hColumn : Bins.bin p.x columns = .ok (Bins.binOf p.x columns) := if_neg (by omega)
  have hv := Bins.binOf_lt p.y hHigh
  have hc := Bins.binOf_lt p.x hWide
  obtain ⟨row, hConditional, hCount, hRowBuild, _⟩ := conditional_eq_ok hBuild hv
  obtain ⟨w, hWeight⟩ : ∃ w, row.weights[Bins.binOf p.x columns]? = some w :=
    ⟨_, Array.getElem?_eq_getElem (hCount.symm ▸ hc)⟩
  have hNonzero : d.integral.isZero = false := by
    by_contra hZero
    have hValue := ((Binary.isZero_iff d.integral).mp (Bool.not_eq_false _ ▸ hZero)).2
    linarith
  have hDensity := densityAt_eq_ok hBuild hColumn hRow hConditional hWeight
  rw [hNonzero, if_neg Bool.false_ne_true] at hDensity
  exact ⟨_, _, w, _, hRow, hColumn, by rw [← row_weight hRowBuild hc, hWeight], hDensity,
    weight_div_error hColumns hRows hBuild hLarge hConditional hWeight⟩

/-- The second row has lost its only weight to underflow, and a point of it is given by NaN and
infinity. -/
theorem densityAt_accurate_underflow :
    ∃ d q, build [.one, .ofNat .single 3, .ofBits .single 1, .zero] 2 2 = .ok d ∧
      (rowIntegrals d)[1]? = some Binary.zero ∧ d.densityAt ⟨.nan, .infinity⟩ = .ok q ∧
      |q.value - 2 * 2 * (Binary.ofBits .single 1).value /
        exactSum [.one, .ofNat .single 3, .ofBits .single 1, .zero] 4| ≤
          (2 + 2 + 2) / 2 ^ 22 * (2 * 2 * (Binary.ofBits .single 1).value /
            exactSum [.one, .ofNat .single 3, .ofBits .single 1, .zero] 4) + 1 / 2 ^ 148 := by
  obtain ⟨d, hBuild, hIntegral, hLost⟩ :
      ∃ d, build [.one, .ofNat .single 3, .ofBits .single 1, .zero] 2 2 = .ok d ∧
        d.integral = Binary.one ∧ (rowIntegrals d)[1]? = some Binary.zero :=
    ⟨_, rfl, by decide +kernel, by decide +kernel⟩
  obtain ⟨_, hPoints⟩ := densityAt_accurate _ 2 2 d (by decide) (by decide) hBuild
    (by rw [hIntegral, Binary.value_one]; norm_num)
  obtain ⟨v, c, w, q, hRow, hColumn, hWeight, hDensity, _, hError⟩ := hPoints ⟨.nan, .infinity⟩
  obtain rfl : v = 1 := Except.ok.inj (hRow.symm.trans (by decide))
  obtain rfl : c = 0 := Except.ok.inj (hColumn.symm.trans (by decide))
  cases hWeight
  exact ⟨d, q, hBuild, hLost, hDensity, hError⟩

end StepSampling.GridDensity
