import StepSampling.Proofs.Grid.Queries

/-!
# Grids without an integral

When the integral of a grid is zero, its rows are taken as equally likely, and the density at every
point is one.  The sampled density is a product: the factor across the rows is one, and the factor
along the selected row is decided by the integral of that row alone.

The integral of the grid is made from the integrals of the rows by another division, so it can
underflow where that of a row does not.  The sampled density is then the quotient of the selected
weight and the integral of its row, and that is one only if the two are equal.  The two densities of a
point still agree when all weights are zero, and in a grid of a single row or a single column.
-/

namespace StepSampling

namespace StepDensity

/-- A density is one where there is no integral, and otherwise where weight and integral are equal. -/
theorem density_eq_one_iff {weights : List Single} {d : StepDensity}
    (hWord : weights.length < 2 ^ 64) (hBuild : build weights = .ok d) {k : Nat} {w p : Single}
    (hWeight : d.weights[k]? = some w) (hDensity : d.density k = .ok p) :
    p = (if d.isUniform then Binary.one else w / d.integral) ∧
      (p = Binary.one ↔ d.isUniform = true ∨ w.value = d.integral.value) := by
  obtain ⟨_, hWeights, _, _, hFinite, _⟩ := build_eq_ok hBuild
  cases hUniform : d.isUniform with
  | true =>
      rw [density_of_isUniform hUniform] at hDensity
      cases hDensity
      exact ⟨rfl, fun _ => Or.inl rfl, fun _ => rfl⟩
  | false =>
      have hPos := integral_pos hWord hBuild hUniform
      rw [density_of_integral_pos
        (Binary.zero_lt_iff.mpr ⟨Binary.isNaN_of_isFinite hFinite, hPos⟩) hWeight] at hDensity
      cases hDensity
      obtain ⟨hw, hLow⟩ :=
        w.isWeight_iff.mp (hWeights w (mem_of_getElem?_weights hBuild hWeight))
      refine ⟨rfl, ?_⟩
      rw [Binary.div_eq_one_iff hLow hw hFinite hPos]
      simp only [Bool.false_eq_true, false_or]

end StepDensity

namespace GridDensity

section

variable {weights : List Single} {columns rows : Nat} {d : GridDensity}
  (hWord : weights.length < 2 ^ 64) (hBuild : build weights columns rows = .ok d)

include hBuild

/-- Without an integral the density is one at every point. -/
theorem densityAt_of_isZero (hFallback : d.integral.isZero = true) (p : Point Single) :
    d.densityAt p = .ok Binary.one := by
  obtain ⟨hColumns, hRows, _, _, _, _⟩ := build_eq_ok hBuild
  rw [densityAt, columns_eq hBuild, rowCount_eq hBuild, Bins.bin, if_neg (by omega), Bins.bin,
    if_neg (by omega)]
  show (if d.marginal.isUniform then _ else _) = _
  exact if_pos hFallback

include hWord

/-- A row of zeros has no integral. -/
theorem isUniform_of_zeros {v : Nat} {row : StepDensity} (hRow : d.conditional v = .ok row)
    (hZeros : ∀ w ∈ weights, w.isZero = true) : row.isUniform = true := by
  obtain ⟨_, stretch, hLength, hSubset, hRowBuild⟩ := exists_row_build hBuild hRow
  have hIntegral := StepDensity.integral_of_zeros (hLength ▸ (dimensions_lt hWord hBuild).1)
    hRowBuild fun w hw => hZeros w (hSubset w hw)
  rw [StepDensity.isUniform, hIntegral]
  rfl

omit hWord in
/-- The integral of a single row is that of the grid. -/
theorem isUniform_of_single_row (hSingle : rows = 1) (hFallback : d.integral.isZero = true)
    {v : Nat} {row : StepDensity} (hRow : d.conditional v = .ok row) : row.isUniform = true := by
  obtain ⟨integrals, hLength, hMarginal⟩ := exists_marginal_build hBuild
  obtain ⟨_, stretch, _, _, hRowBuild⟩ := exists_row_build hBuild hRow
  obtain ⟨_, _, _, _, hFinite, _⟩ := StepDensity.build_eq_ok hRowBuild
  obtain ⟨a, rfl⟩ := List.length_eq_one_iff.mp (hLength.trans hSingle)
  have hMem := StepDensity.mem_of_getElem?_weights hMarginal
    (marginal_weight hBuild (fetch_eq_ok_iff.mp hRow))
  obtain rfl := List.mem_singleton.mp hMem
  have hValue := ((Binary.isZero_iff _).mp hFallback).2
  rw [integral, StepDensity.integral_of_single hMarginal] at hValue
  exact (Binary.isZero_iff _).mpr ⟨Binary.isNaN_of_isFinite hFinite, hValue⟩

omit hWord in
/-- The integral of a single column is its weight. -/
theorem value_of_single_column (hSingle : columns = 1) {v c : Nat} {row : StepDensity} {w : Single}
    (hRow : d.conditional v = .ok row) (hWeight : row.weights[c]? = some w) :
    w.value = row.integral.value := by
  obtain ⟨_, stretch, hLength, _, hRowBuild⟩ := exists_row_build hBuild hRow
  obtain ⟨a, rfl⟩ := List.length_eq_one_iff.mp (hLength.trans hSingle)
  have hMem := StepDensity.mem_of_getElem?_weights hRowBuild hWeight
  rw [List.mem_singleton.mp hMem, StepDensity.integral_of_single hRowBuild]

end

/-- **The density of a grid without an integral.**  It is one at every point.  A sample is returned
with the density along the selected row, and this is one exactly if the row has no integral either or
the selected weight is equal to it.  So the two agree whenever all weights are zero, and in grids of a
single row or a single column. -/
theorem fallback_density (weights : List Single) (columns rows : Nat) (d : GridDensity)
    (hWord : weights.length < 2 ^ 64) (hBuild : build weights columns rows = .ok d)
    (hFallback : d.integral.isZero = true) (u : Point Single) (hx : u.x.isNaN = false)
    (hy : u.y.isNaN = false) :
    ∃ v row c w p density, d.marginal.bin u.x = .ok v ∧ d.conditional v = .ok row ∧
      row.bin u.y = .ok c ∧ row.weights[c]? = some w ∧ d.sample u = .ok (p, density) ∧
      d.densityAt p = .ok Binary.one ∧
      density = (if row.isUniform then Binary.one else w / row.integral) ∧
      (density = Binary.one ↔ row.isUniform = true ∨ w.value = row.integral.value) ∧
      ((∀ w ∈ weights, w.isZero = true) ∨ rows = 1 ∨ columns = 1 → density = Binary.one) := by
  obtain ⟨v, row, hSelected, hRow, hCases⟩ := sample_cases hWord hBuild u
  rcases hCases with ⟨hNaN, _⟩ | ⟨_, hNaN, _⟩ |
    ⟨_, _, c, x, y, p, q, hColumn, hp, hq, _, hAlong, hSample⟩
  · rw [hx] at hNaN
    cases hNaN
  · rw [hy] at hNaN
    cases hNaN
  · obtain ⟨_, stretch, hLength, _, hRowBuild⟩ := exists_row_build hBuild hRow
    have hStretch : stretch.length < 2 ^ 64 := hLength ▸ (dimensions_lt hWord hBuild).1
    -- the factor across the rows is one, and drops out
    rw [StepDensity.density_of_isUniform hFallback] at hp
    cases hp
    rw [Binary.mul_one_eq (StepDensity.density_range hStretch hRowBuild hq).1.1] at hSample
    have hc : c < row.weights.size := ((row_answers hWord hBuild hRow).sample_ok _ _ hAlong).1
    have hWeight : row.weights[c]? = some row.weights[c] := Array.getElem?_eq_getElem hc
    obtain ⟨hFormula, hOne⟩ := StepDensity.density_eq_one_iff hStretch hRowBuild hWeight hq
    refine ⟨v, row, c, _, ⟨x, y⟩, q, hSelected, hRow, hColumn, hWeight, hSample,
      densityAt_of_isZero hBuild hFallback _, hFormula, hOne, ?_⟩
    rintro (hZeros | hSingle | hSingle)
    · exact hOne.mpr (Or.inl (isUniform_of_zeros hWord hBuild hRow hZeros))
    · exact hOne.mpr (Or.inl (isUniform_of_single_row hBuild hSingle hFallback hRow))
    · exact hOne.mpr (Or.inr (value_of_single_column hBuild hSingle hRow hWeight))

/-- A single column with the least positive weight: the integral of the grid is lost, that of the first
row is not. -/
theorem fallback_density_column :
    ∃ d row p, build [.ofBits .single 1, .zero] 1 2 = .ok d ∧ d.integral.isZero = true ∧
      d.conditional 0 = .ok row ∧ row.isUniform = false ∧
      d.sample ⟨.zero, .zero⟩ = .ok (p, .one) ∧ d.densityAt p = .ok .one := by
  obtain ⟨_, _, _, _, p, density, _, _, _, _, hSample, hAt, _, _, hOne⟩ :=
    fallback_density [.ofBits .single 1, .zero] 1 2 _ (by decide) rfl (by decide +kernel)
      ⟨.zero, .zero⟩ rfl rfl
  cases hOne (Or.inr (Or.inr rfl))
  exact ⟨_, _, p, rfl, by decide +kernel, rfl, by decide +kernel, hSample, hAt⟩

/-- Two columns with twice the least positive weight in the first: the sampled density is two, and the
density at the point is one. -/
theorem fallback_density_lost :
    ∃ d p, build [.ofBits .single 2, .zero, .ofBits .single 2, .zero] 2 2 = .ok d ∧
      d.integral.isZero = true ∧ d.sample ⟨.zero, .zero⟩ = .ok (p, .ofNat .single 2) ∧
      d.densityAt p = .ok .one ∧ (.ofNat .single 2 : Single) ≠ .one := by
  refine ⟨_, ⟨.zero, .zero⟩, rfl, ?_⟩
  decide +kernel

end GridDensity

end StepSampling
