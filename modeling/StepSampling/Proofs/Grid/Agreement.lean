import StepSampling.Grid.Sampling
import StepSampling.Proofs.Binary.Errors
import StepSampling.Proofs.Density.Agreement
import StepSampling.Proofs.Density.Bounds
import StepSampling.Proofs.Grid.Structure

/-!
# A sampled point lies in its cell

A point is drawn by two samplings, one across the rows and one along the row that was selected, and
each coordinate falls back into its bin.  The density at the point is looked up in the drawn cell.

The density that comes with the point is a product of two rounded quotients, the one that is looked
up a single rounded quotient.  Where no quotient is subnormal each rounding has the relative error
`2 ^ (-24)`, and the four of them together stay within `2 ^ (-21)`.
-/

namespace StepSampling

/-! ## Four roundings -/

/-- Two quotients and their product, each with the relative error `δ`, against the direct quotient. -/
private theorem product_error {A B a b c e least δ : ℚ} (hA : 0 ≤ A) (hB : 0 ≤ B)
    (hδ : 0 ≤ δ) (hSmall : 16 * δ ≤ 1) (ha : |a - A| ≤ δ * A) (hb : |b - B| ≤ δ * B)
    (hc : |c - a * b| ≤ δ * max |a * b| least) (hLeast : least ≤ A * B)
    (he : |e - A * B| ≤ δ * (A * B)) : |c - e| ≤ 8 * δ * (A * B) := by
  have hAB : 0 ≤ A * B := mul_nonneg hA hB
  have hbAbs : |b| ≤ (1 + δ) * B := by
    calc |b| = |(b - B) + B| := by rw [sub_add_cancel]
      _ ≤ |b - B| + |B| := abs_add_le _ _
      _ ≤ δ * B + B := by rw [abs_of_nonneg hB]; linarith
      _ = (1 + δ) * B := by ring
  have hProduct : |a * b - A * B| ≤ (2 * δ + δ * δ) * (A * B) := by
    calc |a * b - A * B| = |(a - A) * b + A * (b - B)| := by ring_nf
      _ ≤ |(a - A) * b| + |A * (b - B)| := abs_add_le _ _
      _ = |a - A| * |b| + A * |b - B| := by rw [abs_mul, abs_mul, abs_of_nonneg hA]
      _ ≤ δ * A * ((1 + δ) * B) + A * (δ * B) := by gcongr
      _ = (2 * δ + δ * δ) * (A * B) := by ring
  have hMax : max |a * b| least ≤ (1 + 2 * δ + δ * δ) * (A * B) := by
    apply max_le
    · calc |a * b| = |(a * b - A * B) + A * B| := by rw [sub_add_cancel]
        _ ≤ |a * b - A * B| + |A * B| := abs_add_le _ _
        _ ≤ (2 * δ + δ * δ) * (A * B) + A * B := by rw [abs_of_nonneg hAB]; linarith
        _ = (1 + 2 * δ + δ * δ) * (A * B) := by ring
    · nlinarith [mul_nonneg hδ hAB, mul_nonneg (mul_nonneg hδ hδ) hAB]
  calc |c - e| = |(c - a * b) + (a * b - A * B) + (A * B - e)| := by ring_nf
    _ ≤ |c - a * b| + |a * b - A * B| + |A * B - e| := abs_add_three _ _ _
    _ ≤ δ * ((1 + 2 * δ + δ * δ) * (A * B)) + (2 * δ + δ * δ) * (A * B) + δ * (A * B) := by
        rw [abs_sub_comm (A * B) e]
        have hScaled := mul_le_mul_of_nonneg_left hMax hδ
        linarith
    _ ≤ 8 * δ * (A * B) := by
        have hFactor : δ * (1 + 2 * δ + δ * δ) + (2 * δ + δ * δ) + δ ≤ 8 * δ := by nlinarith
        nlinarith [mul_le_mul_of_nonneg_right hFactor hAB]

/-- The product of the rounded quotients `w / v` and `v / f` against the rounded quotient `w / f`. -/
theorem quotient_product_error {w v f : Single} (hw : w.isFinite = true) (hv : v.isFinite = true)
    (hf : f.isFinite = true) (hvPos : 0 < v.value) (hfPos : 0 < f.value)
    (hFirst : 1 / 2 ^ 126 ≤ w.value / v.value) (hSecond : 1 / 2 ^ 126 ≤ v.value / f.value)
    (hDirect : 1 / 2 ^ 126 ≤ w.value / f.value) (hFirstHigh : w.value / v.value ≤ 2 ^ 25)
    (hSecondHigh : v.value / f.value ≤ 2 ^ 25) :
    |(w / v * (v / f)).value - (w / f).value| ≤ 1 / 2 ^ 21 * (w.value / f.value) := by
  have hProduct : w.value / f.value = w.value / v.value * (v.value / f.value) := by
    field_simp
  have hFirstLow : 0 ≤ w.value / v.value := le_trans (by positivity) hFirst
  have hSecondLow : 0 ≤ v.value / f.value := le_trans (by positivity) hSecond
  have hDirectHigh : w.value / f.value ≤ 2 ^ 50 := by
    rw [hProduct]
    calc w.value / v.value * (v.value / f.value) ≤ 2 ^ 25 * 2 ^ 25 :=
          mul_le_mul hFirstHigh hSecondHigh hSecondLow (by positivity)
      _ = 2 ^ 50 := by norm_num
  have ha := Binary.div_rounds w v hw hv hvPos.ne'
  have hb := Binary.div_rounds v f hv hf hfPos.ne'
  have he := Binary.div_rounds w f hw hf hfPos.ne'
  have haFinite := ha.isFinite hFirstLow (hFirstHigh.trans (by norm_num))
  have hbFinite := hb.isFinite hSecondLow (hSecondHigh.trans (by norm_num))
  have heFinite := he.isFinite (by positivity) (hDirectHigh.trans (by norm_num))
  have haError := Single.relative_error ha haFinite hFirst
  have hbError := Single.relative_error hb hbFinite hSecond
  have heError := Single.relative_error he heFinite hDirect
  rw [hProduct] at heError
  have hc := Binary.mul_rounds _ _ haFinite hbFinite
  have haLow := ha.value_nonneg hFirstLow
  have hbLow := hb.value_nonneg hSecondLow
  have haHigh : (w / v).value ≤ 2 ^ 26 := by
    have hUpper := (abs_le.mp haError).2
    linarith
  have hbHigh : (v / f).value ≤ 2 ^ 26 := by
    have hUpper := (abs_le.mp hbError).2
    linarith
  have hcHigh : (w / v).value * (v / f).value ≤ 2 ^ 100 := by
    calc (w / v).value * (v / f).value ≤ 2 ^ 26 * 2 ^ 26 :=
          mul_le_mul haHigh hbHigh hbLow (by positivity)
      _ ≤ 2 ^ 100 := by norm_num
  have hcFinite := hc.isFinite (mul_nonneg haLow hbLow) hcHigh
  have hcError := Single.error_le hc hcFinite
  have hTotal := product_error hFirstLow hSecondLow (by positivity) (by norm_num) haError hbError
    hcError (hProduct ▸ hDirect) heError
  rw [hProduct]
  refine hTotal.trans (le_of_eq ?_)
  ring

theorem Single.inUnitInterval_iff (x : Single) :
    x.inUnitInterval = true ↔ x.isNaN = false ∧ 0 ≤ x.value ∧ x.value < 1 := by
  rw [Single.inUnitInterval, Bool.and_eq_true, decide_eq_true_iff, decide_eq_true_iff,
    Binary.zero_le_iff, Binary.lt_iff_value, Binary.value_one]
  constructor
  · rintro ⟨⟨hNumber, hLow⟩, _, _, hHigh⟩
    exact ⟨hNumber, hLow, hHigh⟩
  · rintro ⟨hNumber, hLow, hHigh⟩
    exact ⟨⟨hNumber, hLow⟩, hNumber, rfl, hHigh⟩

namespace GridDensity

/-- A row keeps its stretch of the weights. -/
theorem row_weight {weights : List Single} {columns v c : Nat} {row : StepDensity}
    (hRow : StepDensity.build ((weights.drop (v * columns)).take columns) = .ok row)
    (hColumn : c < columns) : row.weights[c]? = weights[v * columns + c]? := by
  obtain ⟨_, _, hKept, _, _, _⟩ := StepDensity.build_eq_ok hRow
  rw [hKept, List.getElem?_toArray, getElem?_stretch weights hColumn]

section

variable {weights : List Single} {columns rows : Nat} {d : GridDensity}
  (hBuild : build weights columns rows = .ok d)

include hBuild

theorem columns_eq : d.columns = columns := by
  obtain ⟨_, hRows, hSize, _, hRow, _⟩ := build_eq_ok hBuild
  obtain ⟨row, hFirst, hFirstBuild⟩ := hRow 0 (by omega)
  rw [GridDensity.columns, hFirst]
  show row.count = columns
  rw [StepDensity.count_eq hFirstBuild, length_stretch hSize (by omega)]

theorem rowCount_eq : d.rowCount = rows := by
  obtain ⟨_, _, _, hCount, _, hMarginal⟩ := build_eq_ok hBuild
  rw [rowCount, StepDensity.count_eq hMarginal, List.length_map, Array.length_toList, hCount]

/-- The weights of the marginal are the integrals of the rows. -/
theorem marginal_weight {v : Nat} {row : StepDensity} (hRow : d.rows[v]? = some row) :
    d.marginal.weights[v]? = some row.integral := by
  obtain ⟨_, _, _, _, _, hMarginal⟩ := build_eq_ok hBuild
  obtain ⟨_, _, hKept, _, _, _⟩ := StepDensity.build_eq_ok hMarginal
  rw [hKept, List.getElem?_toArray, List.getElem?_map, Array.getElem?_toList, hRow,
    Option.map_some]

/-- The density at a point is read from the weight of its cell. -/
theorem densityAt_eq_ok {p : Point Single} {v c : Nat} {row : StepDensity} {w : Single}
    (hColumn : Bins.bin p.x columns = .ok c) (hRow : Bins.bin p.y rows = .ok v)
    (hConditional : d.conditional v = .ok row) (hWeight : row.weights[c]? = some w) :
    d.densityAt p = .ok (if d.integral.isZero then Binary.one else w / d.integral) := by
  rw [densityAt, columns_eq hBuild, rowCount_eq hBuild, hColumn, hRow]
  show (if d.marginal.isUniform then _ else _) = _
  unfold StepDensity.isUniform integral
  split
  · rfl
  · rw [hConditional]
    show (fetch row.weights c >>= _) = _
    rw [fetch_eq_ok_iff.mpr hWeight]
    rfl

/-- The product of the densities across the rows and along a row against the looked-up density. -/
theorem density_product_error (hColumns : columns ≤ 2 ^ 23) (hRows : rows ≤ 2 ^ 23) {v c : Nat}
    {row : StepDensity} {w : Single} (hv : v < rows) (hEntry : d.rows[v]? = some row)
    (hRowBuild : StepDensity.build ((weights.drop (v * columns)).take columns) = .ok row)
    (hWeight : row.weights[c]? = some w) (hRowPos : 0 < row.integral.value)
    (hPos : 0 < d.integral.value) (hFirst : 1 / 2 ^ 126 ≤ w.value / row.integral.value)
    (hSecond : 1 / 2 ^ 126 ≤ row.integral.value / d.integral.value)
    (hDirect : 1 / 2 ^ 126 ≤ w.value / d.integral.value) :
    |(w / row.integral * (row.integral / d.integral)).value - (w / d.integral).value| ≤
      1 / 2 ^ 21 * (w.value / d.integral.value) := by
  obtain ⟨_, _, hSize, hCount, _, hMarginal⟩ := build_eq_ok hBuild
  obtain ⟨_, hRowWeights, hRowKept, _, hRowFinite, _⟩ := StepDensity.build_eq_ok hRowBuild
  obtain ⟨_, _, hKept, _, hFinite, _⟩ := StepDensity.build_eq_ok hMarginal
  have hStretch := length_stretch hSize hv
  have hMemRow : w ∈ (weights.drop (v * columns)).take columns := by
    rw [hRowKept] at hWeight
    exact List.mem_of_getElem? (by simpa using hWeight)
  have hMemMarginal : row.integral ∈ d.rows.toList.map (·.integral) := by
    have hMarginalWeight := marginal_weight hBuild hEntry
    rw [hKept] at hMarginalWeight
    exact List.mem_of_getElem? (by simpa using hMarginalWeight)
  have hwFinite := (w.isWeight_iff.mp (hRowWeights w hMemRow)).1
  apply quotient_product_error hwFinite hRowFinite hFinite hRowPos hPos hFirst hSecond hDirect
  · exact StepDensity.ratio_le (by omega) hRowBuild hRowPos hMemRow
  · exact StepDensity.ratio_le (by rw [List.length_map, Array.length_toList, hCount]; exact hRows)
      hMarginal hPos hMemMarginal

/-- Sampling goes through, and each coordinate falls into the bin that was selected for it. -/
theorem sample_eq_ok (hColumns : columns ≤ 2 ^ 23) (hRows : rows ≤ 2 ^ 23) {u : Point Single}
    (hx : u.x.isNaN = false) (hy : u.y.isNaN = false) :
    ∃ x y v c row p q, d.marginal.bin u.x = .ok v ∧ v < rows ∧ d.rows[v]? = some row ∧
      StepDensity.build ((weights.drop (v * columns)).take columns) = .ok row ∧
      row.bin u.y = .ok c ∧ c < columns ∧ d.marginal.density v = .ok p ∧ row.density c = .ok q ∧
      d.sample u = .ok (⟨x, y⟩, q * p) ∧ x.inUnitInterval = true ∧ y.inUnitInterval = true ∧
      Bins.binOf x columns = c ∧ Bins.binOf y rows = v := by
  obtain ⟨_, _, hSize, hCount, hRow, hMarginal⟩ := build_eq_ok hBuild
  have hLength : (d.rows.toList.map (·.integral)).length = rows := by
    rw [List.length_map, Array.length_toList, hCount]
  obtain ⟨v, y, p, hAcross, hv, hp, hAcrossSample, hyNumber, hyLow, hyHigh, hyBin⟩ :=
    StepDensity.sample_eq_ok hMarginal (by omega) hx
  rw [hLength] at hv hyBin
  obtain ⟨row, hEntry, hRowBuild⟩ := hRow v hv
  have hStretch := length_stretch hSize hv
  obtain ⟨c, x, q, hAlong, hc, hq, hAlongSample, hxNumber, hxLow, hxHigh, hxBin⟩ :=
    StepDensity.sample_eq_ok hRowBuild (by omega) hy
  rw [hStretch] at hc hxBin
  refine ⟨x, y, v, c, row, p, q, hAcross, hv, hEntry, hRowBuild, hAlong, hc, hp, hq, ?_,
    (Single.inUnitInterval_iff x).mpr ⟨hxNumber, hxLow, hxHigh⟩,
    (Single.inUnitInterval_iff y).mpr ⟨hyNumber, hyLow, hyHigh⟩, hxBin, hyBin⟩
  rw [sample, hAcrossSample]
  show (d.conditional v >>= _) = _
  rw [conditional, fetch_eq_ok_iff.mpr hEntry]
  show (row.sample u.y >>= _) = _
  rw [hAlongSample]
  rfl

end

/-- **Sample and density agree on a grid.**  With up to `2 ^ 23` columns and rows, every pair of variates
other than NaN gives a point of the half-open unit square that falls into the cell it was drawn from:
the row that the marginal selects and the column that this row selects.  The density at the point is
read from the weight of that cell, and differs from the density that was returned with it by at most
`2 ^ (-21)` of the exact ratio, as long as no quotient that enters is subnormal. -/
theorem sample_agrees_in_cell (weights : List Single) (columns rows : Nat) (d : GridDensity)
    (hColumns : columns ≤ 2 ^ 23) (hRows : rows ≤ 2 ^ 23)
    (hBuild : build weights columns rows = .ok d) (u : Point Single)
    (hx : u.x.isNaN = false) (hy : u.y.isNaN = false) :
    ∃ p density v c row w looked, d.sample u = .ok (p, density) ∧ p.inUnitSquare = true ∧
      d.marginal.bin u.x = .ok v ∧ d.conditional v = .ok row ∧ row.bin u.y = .ok c ∧
      Bins.bin p.y rows = .ok v ∧ Bins.bin p.x columns = .ok c ∧
      weights[v * columns + c]? = some w ∧ row.weights[c]? = some w ∧
      d.densityAt p = .ok looked ∧
      looked = (if d.integral.isZero then Binary.one else w / d.integral) ∧
      (Binary.zero < row.integral → Binary.zero < d.integral →
        1 / 2 ^ 126 ≤ w.value / row.integral.value →
        1 / 2 ^ 126 ≤ row.integral.value / d.integral.value →
        1 / 2 ^ 126 ≤ w.value / d.integral.value →
        |density.value - looked.value| ≤ 1 / 2 ^ 21 * (w.value / d.integral.value)) := by
  obtain ⟨x, y, v, c, row, p, q, hAcross, hv, hEntry, hRowBuild, hAlong, hc, hp, hq, hSample,
    hxUnit, hyUnit, hxBin, hyBin⟩ := sample_eq_ok hBuild hColumns hRows hx hy
  obtain ⟨_, _, hSize, _, _, _⟩ := build_eq_ok hBuild
  have hWeightAt : v * columns + c < weights.length := by
    have hEnd : (v + 1) * columns ≤ rows * columns := Nat.mul_le_mul_right columns hv
    rw [Nat.succ_mul, Nat.mul_comm rows, hSize] at hEnd
    omega
  obtain ⟨w, hWeight⟩ : ∃ w, weights[v * columns + c]? = some w :=
    ⟨_, List.getElem?_eq_getElem hWeightAt⟩
  have hRowWeight : row.weights[c]? = some w := by
    rw [row_weight hRowBuild hc, hWeight]
  have hFoundRow : Bins.bin y rows = .ok v := by rw [Bins.bin, if_neg (by omega), hyBin]
  have hFoundColumn : Bins.bin x columns = .ok c := by rw [Bins.bin, if_neg (by omega), hxBin]
  have hConditional : d.conditional v = .ok row := fetch_eq_ok_iff.mpr hEntry
  refine ⟨⟨x, y⟩, q * p, v, c, row, w, _, hSample, ?_, hAcross, hConditional, hAlong,
    hFoundRow, hFoundColumn, hWeight, hRowWeight, ?_, rfl, ?_⟩
  · rw [Point.inUnitSquare, hxUnit, hyUnit]
    rfl
  · exact densityAt_eq_ok hBuild hFoundColumn hFoundRow hConditional hRowWeight
  · intro hRowPos hPos hFirst hSecond hDirect
    have hNonzero : d.integral.isZero = false := by
      by_contra hZero
      have hValue := ((Binary.isZero_iff d.integral).mp (Bool.not_eq_false _ ▸ hZero)).2
      have hPosValue := (Binary.zero_lt_iff.mp hPos).2
      linarith
    rw [hNonzero, if_neg Bool.false_ne_true]
    rw [StepDensity.density_of_integral_pos hPos (marginal_weight hBuild hEntry)] at hp
    rw [StepDensity.density_of_integral_pos hRowPos hRowWeight] at hq
    cases hp
    cases hq
    exact density_product_error hBuild hColumns hRows hv hEntry hRowBuild hRowWeight
      (Binary.zero_lt_iff.mp hRowPos).2 (Binary.zero_lt_iff.mp hPos).2 hFirst hSecond hDirect

/-- Six equal weights, whose thirds and sums are rounded. -/
theorem sample_agrees_in_cell_equal :
    ∃ d p density looked, build (List.replicate 6 (.ofNat .single 7)) 3 2 = .ok d ∧
      d.sample ⟨.infinity, .zero⟩ = .ok (p, density) ∧ p.inUnitSquare = true ∧
      d.densityAt p = .ok looked ∧ |density.value - looked.value| ≤
        1 / 2 ^ 21 * ((Binary.ofNat .single 7).value / d.integral.value) := by
  obtain ⟨d, hBuild, hPos, hDirect, hRows⟩ :
      ∃ d, build (List.replicate 6 (.ofNat .single 7)) 3 2 = .ok d ∧ Binary.zero < d.integral ∧
        1 / 2 ^ 126 ≤ (Binary.ofNat .single 7).value / d.integral.value ∧
        ∀ row ∈ d.rows.toList, Binary.zero < row.integral ∧
          1 / 2 ^ 126 ≤ (Binary.ofNat .single 7).value / row.integral.value ∧
          1 / 2 ^ 126 ≤ row.integral.value / d.integral.value := ⟨_, rfl, by decide +kernel⟩
  obtain ⟨p, density, v, c, row, w, looked, hSample, hUnit, _, hRow, _, _, _, hWeight, _, hLooked,
    _, hError⟩ := sample_agrees_in_cell (List.replicate 6 (.ofNat .single 7)) 3 2 d (by decide)
      (by decide) hBuild ⟨.infinity, .zero⟩ rfl rfl
  obtain rfl : w = .ofNat .single 7 := List.eq_of_mem_replicate (List.mem_of_getElem? hWeight)
  have hMem := Array.mem_toList_iff.mpr (Array.mem_of_getElem? (fetch_eq_ok_iff.mp hRow))
  obtain ⟨hRowPos, hFirst, hSecond⟩ := hRows row hMem
  exact ⟨d, p, density, looked, hBuild, hSample, hUnit, hLooked,
    hError hRowPos hPos hFirst hSecond hDirect⟩

end GridDensity

end StepSampling
