import StepSampling.Proofs.Density.Queries
import StepSampling.Proofs.Grid.Construction

/-!
# What the queries of a grid density answer

A sample of a grid is refused exactly where one of its two samplings is: across the rows for the first
variate, or along the row that the first variate selects for the second.  There is a density at every
point.

All densities are finite.  A density across the rows is bounded by a multiple of the number of rows, one
along a row by a multiple of the number of columns, and the product of the two numbers is the number
of weights.
-/

namespace StepSampling

/-- A product of densities, if it is not too large. -/
theorem Single.IsDensity.mul {p q : Single} (hp : p.IsDensity) (hq : q.IsDensity)
    (hSmall : p.value * q.value ≤ 2 ^ 100) : (p * q).IsDensity := by
  have hProduct := Binary.mul_rounds p q hp.1 hq.1
  have hNonneg : 0 ≤ p.value * q.value :=
    mul_nonneg (Binary.value_nonneg_of_le hp.2) (Binary.value_nonneg_of_le hq.2)
  exact ⟨hProduct.isFinite hNonneg hSmall,
    Binary.zero_le_iff.mpr ⟨hProduct.1, hProduct.value_nonneg hNonneg⟩⟩

namespace GridDensity

/-- What the queries of a grid density answer, whatever they are asked. -/
structure Answers (d : GridDensity) : Prop where
  /-- There is a first row, and its bins are the columns. -/
  columns_ok : ∃ row, d.conditional 0 = .ok row ∧ row.count = d.columns
  /-- The marginal answers its queries. -/
  marginal : d.marginal.Answers
  /-- The rows answer their queries. -/
  rows : ∀ v row, d.conditional v = .ok row → row.Answers
  /-- A sample is refused for NaN only: across the rows if the first segment of the marginal has a
  width, along a row if the first segment of the selected row has one. -/
  sample_error_iff : ∀ u f, d.sample u = .error f ↔ f = .positionNaN ∧
    (u.x.isNaN = true ∧ Binary.zero < d.marginal.cdf.getD 1 .nan ∨
      u.y.isNaN = true ∧ ∃ v row, d.marginal.bin u.x = .ok v ∧ d.conditional v = .ok row ∧
        Binary.zero < row.cdf.getD 1 .nan)
  /-- A sample is made of a sample across the rows and one along the selected row. -/
  sample_ok : ∀ u p density, d.sample u = .ok (p, density) → density.IsDensity ∧
    ∃ across row along, d.marginal.sample u.x = .ok across ∧ across.bin < d.rowCount ∧
      d.conditional across.bin = .ok row ∧ row.sample u.y = .ok along ∧ along.bin < d.columns ∧
      p = ⟨along.x, across.x⟩ ∧ density = along.density * across.density
  /-- There is a density at every point. -/
  densityAt_ok : ∀ p, ∃ q, d.densityAt p = .ok q ∧ q.IsDensity

/-! ## The two samplings -/

section

variable {d : GridDensity} {u : Point Single}

theorem sample_of_marginal_error {f : Fault} (hAcross : d.marginal.sample u.x = .error f) :
    d.sample u = .error f := by
  rw [sample, hAcross]
  rfl

/-- Once a row is selected, the sample is that of the row. -/
theorem sample_of_marginal {across : Draw} {row : StepDensity}
    (hAcross : d.marginal.sample u.x = .ok across) (hRow : d.conditional across.bin = .ok row) :
    d.sample u = (row.sample u.y).map fun along =>
      (⟨along.x, across.x⟩, along.density * across.density) := by
  rw [sample, hAcross]
  show (d.conditional across.bin >>= _) = _
  rw [hRow]
  show (row.sample u.y >>= _) = _
  cases row.sample u.y <;> rfl

end

/-! ## Built grids -/

section

variable {weights : List Single} {columns rows : Nat} {d : GridDensity}
  (hWord : weights.length < 2 ^ 64) (hBuild : build weights columns rows = .ok d)

include hWord hBuild

/-- The dimensions of a built grid are words as well. -/
theorem dimensions_lt : columns < 2 ^ 64 ∧ rows < 2 ^ 64 := by
  obtain ⟨hColumns, hRows, hSize, _, _, _⟩ := build_eq_ok hBuild
  have hWide : columns * 1 ≤ columns * rows := Nat.mul_le_mul_left columns hRows
  have hHigh : 1 * rows ≤ columns * rows := Nat.mul_le_mul_right rows hColumns
  omega

omit hWord in
/-- The marginal, as a density of its own. -/
theorem exists_marginal_build :
    ∃ integrals : List Single, integrals.length = rows ∧
      StepDensity.build integrals = .ok d.marginal := by
  obtain ⟨_, _, _, hCount, _, hMarginal⟩ := build_eq_ok hBuild
  exact ⟨_, by rw [List.length_map, Array.length_toList, hCount], hMarginal⟩

omit hWord in
/-- A row, as a density of its own. -/
theorem exists_row_build {v : Nat} {row : StepDensity} (hRow : d.conditional v = .ok row) :
    v < rows ∧ ∃ stretch : List Single, stretch.length = columns ∧
      (∀ w ∈ stretch, w ∈ weights) ∧ StepDensity.build stretch = .ok row := by
  obtain ⟨_, _, hSize, hCount, hRows, _⟩ := build_eq_ok hBuild
  have hEntry := fetch_eq_ok_iff.mp hRow
  have hv : v < rows := by
    obtain ⟨hIndex, _⟩ := Array.getElem?_eq_some_iff.mp hEntry
    omega
  obtain ⟨row', hEntry', hRowBuild⟩ := hRows v hv
  rw [hEntry, Option.some.injEq] at hEntry'
  subst hEntry'
  exact ⟨hv, _, length_stretch hSize hv,
    fun w hw => List.mem_of_mem_drop (List.mem_of_mem_take hw), hRowBuild⟩

theorem marginal_answers : d.marginal.Answers := by
  obtain ⟨integrals, hLength, hMarginal⟩ := exists_marginal_build hBuild
  exact StepDensity.answers_of_build (hLength ▸ (dimensions_lt hWord hBuild).2) hMarginal

theorem row_answers {v : Nat} {row : StepDensity} (hRow : d.conditional v = .ok row) :
    row.Answers := by
  obtain ⟨_, stretch, hLength, _, hRowBuild⟩ := exists_row_build hBuild hRow
  exact StepDensity.answers_of_build (hLength ▸ (dimensions_lt hWord hBuild).1) hRowBuild

/-- The marginal selects a row that exists. -/
theorem exists_selected_row (u : Single) : ∃ v row, d.marginal.bin u = .ok v ∧ v < rows ∧
    d.conditional v = .ok row := by
  obtain ⟨integrals, hLength, hMarginal⟩ := exists_marginal_build hBuild
  obtain ⟨v, hBin, hv⟩ :=
    StepDensity.exists_bin (hLength ▸ (dimensions_lt hWord hBuild).2) hMarginal u
  rw [hLength] at hv
  obtain ⟨row, hRow, _⟩ := conditional_eq_ok hBuild hv
  exact ⟨v, row, hBin, hv, hRow⟩

/-- A density across the rows times a density along a row. -/
theorem product_isDensity {v c : Nat} {row : StepDensity} {p q : Single}
    (hRow : d.conditional v = .ok row) (hp : d.marginal.density v = .ok p)
    (hq : row.density c = .ok q) : (q * p).IsDensity := by
  obtain ⟨hWide, hHigh⟩ := dimensions_lt hWord hBuild
  obtain ⟨_, _, hSize, _, _, _⟩ := build_eq_ok hBuild
  obtain ⟨integrals, hLength, hMarginal⟩ := exists_marginal_build hBuild
  obtain ⟨_, stretch, hStretch, _, hRowBuild⟩ := exists_row_build hBuild hRow
  obtain ⟨hpDensity, hpBound⟩ := StepDensity.density_range (hLength ▸ hHigh) hMarginal hp
  obtain ⟨hqDensity, hqBound⟩ := StepDensity.density_range (hStretch ▸ hWide) hRowBuild hq
  rw [hLength] at hpBound
  rw [hStretch] at hqBound
  apply hqDensity.mul hpDensity
  have hCells : (columns : ℚ) * rows < 2 ^ 64 := by exact_mod_cast hSize ▸ hWord
  calc q.value * p.value ≤ 12 * columns * (12 * rows) :=
        mul_le_mul hqBound hpBound (Binary.value_nonneg_of_le hpDensity.2) (by positivity)
    _ = 144 * (columns * rows) := by ring
    _ ≤ 2 ^ 100 := by linarith

/-- A weight over a positive integral of the whole grid.  The row of the weight may have lost it to
underflow, and then the integral of the grid bounds it directly. -/
theorem weight_div_isDensity {v : Nat} {row : StepDensity} {w : Single}
    (hRow : d.conditional v = .ok row) (hMem : w ∈ row.weights.toList)
    (hPos : 0 < d.integral.value) : (w / d.integral).IsDensity := by
  obtain ⟨hWide, hHigh⟩ := dimensions_lt hWord hBuild
  obtain ⟨hColumns, hRows, hSize, _, _, hMarginal⟩ := build_eq_ok hBuild
  obtain ⟨_, stretch, hStretch, _, hRowBuild⟩ := exists_row_build hBuild hRow
  obtain ⟨_, hWeights, hKept, _, _, _⟩ := StepDensity.build_eq_ok hRowBuild
  obtain ⟨_, _, _, _, hFinite, _⟩ := StepDensity.build_eq_ok hMarginal
  rw [hKept, List.toList_toArray] at hMem
  have hLength : (d.rows.toList.map (·.integral)).length = rows := by
    rw [← rowCount_eq hBuild, rowCount, StepDensity.count_eq hMarginal]
  have hIntegral := StepDensity.mem_of_getElem?_weights hMarginal
    (marginal_weight hBuild (fetch_eq_ok_iff.mp hRow))
  have hRowsCast : (1 : ℚ) ≤ rows := Nat.one_le_cast.mpr hRows
  have hCells : (columns : ℚ) * rows < 2 ^ 64 := by exact_mod_cast hSize ▸ hWord
  -- the larger one of the two integrals is positive and not much larger than that of the grid
  obtain ⟨y, hyRow, hyPos, hyBound⟩ : ∃ y : Single, row.integral.value ≤ y.value ∧ 0 < y.value ∧
      y.value ≤ 6 * d.integral.value * rows := by
    rcases le_total row.integral.value d.integral.value with hSmall | hLarge
    · refine ⟨d.integral, hSmall, hPos, ?_⟩
      nlinarith
    · refine ⟨row.integral, le_rfl, hPos.trans_le hLarge, ?_⟩
      have hBound := StepDensity.weight_le_mul_length (hLength ▸ hHigh) hMarginal le_rfl hPos
        hIntegral
      rwa [hLength] at hBound
  have hw : w.value ≤ 6 * y.value * columns := by
    rw [← hStretch]
    exact StepDensity.weight_le_mul_length (hStretch ▸ hWide) hRowBuild hyRow hyPos hMem
  refine Single.IsDensity.div (y := d.integral) (Single.isDensity_of_isWeight (hWeights w hMem))
    hFinite hPos ?_
  rw [div_le_iff₀ hPos]
  calc w.value ≤ 6 * y.value * columns := hw
    _ ≤ 6 * (6 * d.integral.value * rows) * columns := by gcongr
    _ = 36 * (columns * rows) * d.integral.value := by ring
    _ ≤ 2 ^ 100 * d.integral.value := by gcongr; linarith

/-- Sampling is refused or goes through, and which of them is known. -/
theorem sample_cases (u : Point Single) :
    ∃ v row, d.marginal.bin u.x = .ok v ∧ d.conditional v = .ok row ∧
      ((u.x.isNaN = true ∧ Binary.zero < d.marginal.cdf.getD 1 .nan ∧
          d.sample u = .error .positionNaN) ∨
        (¬(u.x.isNaN = true ∧ Binary.zero < d.marginal.cdf.getD 1 .nan) ∧
          u.y.isNaN = true ∧ Binary.zero < row.cdf.getD 1 .nan ∧
          d.sample u = .error .positionNaN) ∨
        (¬(u.x.isNaN = true ∧ Binary.zero < d.marginal.cdf.getD 1 .nan) ∧
          ¬(u.y.isNaN = true ∧ Binary.zero < row.cdf.getD 1 .nan) ∧
          ∃ c x y p q, row.bin u.y = .ok c ∧ d.marginal.density v = .ok p ∧
            row.density c = .ok q ∧ d.marginal.sample u.x = .ok ⟨y, p, v⟩ ∧
            row.sample u.y = .ok ⟨x, q, c⟩ ∧ d.sample u = .ok (⟨x, y⟩, q * p))) := by
  obtain ⟨hWide, hHigh⟩ := dimensions_lt hWord hBuild
  obtain ⟨integrals, hLength, hMarginal⟩ := exists_marginal_build hBuild
  obtain ⟨v, row, hSelected, _, hRow⟩ := exists_selected_row hWord hBuild u.x
  obtain ⟨_, stretch, hStretch, _, hRowBuild⟩ := exists_row_build hBuild hRow
  refine ⟨v, row, hSelected, hRow, ?_⟩
  rcases StepDensity.sample_cases (hLength ▸ hHigh) hMarginal u.x with
    ⟨hx, hWidth, hRefused⟩ | ⟨hAcross, v', _, y, p, hSelected', _, _, hp, hSample, _⟩
  · exact Or.inl ⟨hx, hWidth, sample_of_marginal_error hRefused⟩
  · obtain rfl : v' = v := Except.ok.inj (hSelected'.symm.trans hSelected)
    have hThrough := sample_of_marginal hSample hRow
    rcases StepDensity.sample_cases (hStretch ▸ hWide) hRowBuild u.y with
      ⟨hy, hWidth, hRefused⟩ | ⟨hAlong, c, _, x, q, hColumn, _, _, hq, hRowSample, _⟩
    · rw [hRefused] at hThrough
      exact Or.inr (Or.inl ⟨hAcross, hy, hWidth, hThrough⟩)
    · rw [hRowSample] at hThrough
      exact Or.inr (Or.inr ⟨hAcross, hAlong, c, x, y, p, q, hColumn, hp, hq, hSample, hRowSample,
        hThrough⟩)

theorem sample_eq_error_iff (u : Point Single) (f : Fault) :
    d.sample u = .error f ↔ f = .positionNaN ∧
      (u.x.isNaN = true ∧ Binary.zero < d.marginal.cdf.getD 1 .nan ∨
        u.y.isNaN = true ∧ ∃ v row, d.marginal.bin u.x = .ok v ∧ d.conditional v = .ok row ∧
          Binary.zero < row.cdf.getD 1 .nan) := by
  obtain ⟨v, row, hSelected, hRow, hCases⟩ := sample_cases hWord hBuild u
  rcases hCases with ⟨hx, hWidth, hRefused⟩ | ⟨_, hy, hWidth, hRefused⟩ |
    ⟨hAcross, hAlong, _, _, _, _, _, _, _, _, _, _, hSample⟩
  · rw [hRefused, Except.error.injEq, eq_comm]
    exact ⟨fun hf => ⟨hf, Or.inl ⟨hx, hWidth⟩⟩, fun hf => hf.1⟩
  · rw [hRefused, Except.error.injEq, eq_comm]
    exact ⟨fun hf => ⟨hf, Or.inr ⟨hy, v, row, hSelected, hRow, hWidth⟩⟩, fun hf => hf.1⟩
  · rw [hSample]
    constructor
    · intro hf
      cases hf
    · rintro ⟨_, hBoth | ⟨hy, v', row', hSelected', hRow', hWidth⟩⟩
      · exact absurd hBoth hAcross
      · obtain rfl : v = v' := Except.ok.inj (hSelected.symm.trans hSelected')
        obtain rfl : row = row' := Except.ok.inj (hRow.symm.trans hRow')
        exact absurd ⟨hy, hWidth⟩ hAlong

theorem densityAt_isDensity (p : Point Single) : ∃ q, d.densityAt p = .ok q ∧ q.IsDensity := by
  obtain ⟨hColumns, hRows, _, _, _, _⟩ := build_eq_ok hBuild
  obtain ⟨integrals, hLength, hMarginal⟩ := exists_marginal_build hBuild
  obtain ⟨row, hRow, hCount, _, _⟩ := conditional_eq_ok hBuild (Bins.binOf_lt p.y hRows)
  have hColumn : Bins.binOf p.x columns < row.weights.size := by
    rw [← StepDensity.count, hCount]
    exact Bins.binOf_lt p.x hColumns
  refine ⟨_, densityAt_eq_ok hBuild (by rw [Bins.bin, if_neg (by omega)])
    (by rw [Bins.bin, if_neg (by omega)]) hRow (Array.getElem?_eq_getElem hColumn), ?_⟩
  split
  · exact Single.isDensity_one
  · next hNonzero =>
    have hPos : 0 < d.integral.value := StepDensity.integral_pos
      (hLength ▸ (dimensions_lt hWord hBuild).2) hMarginal (Bool.eq_false_iff.mpr hNonzero)
    exact weight_div_isDensity hWord hBuild hRow (Array.getElem_mem_toList hColumn) hPos

/-- A built grid answers its queries. -/
theorem answers_of_build : d.Answers where
  columns_ok := by
    obtain ⟨_, hRows, _, _, _, _⟩ := build_eq_ok hBuild
    obtain ⟨row, hRow, hCount, _, _⟩ := conditional_eq_ok hBuild hRows
    exact ⟨row, hRow, hCount.trans (columns_eq hBuild).symm⟩
  marginal := marginal_answers hWord hBuild
  rows := fun _ _ hRow => row_answers hWord hBuild hRow
  sample_error_iff := sample_eq_error_iff hWord hBuild
  sample_ok := by
    intro u point density hOk
    obtain ⟨v, row, _, hRow, hCases⟩ := sample_cases hWord hBuild u
    rcases hCases with ⟨_, _, hRefused⟩ | ⟨_, _, _, hRefused⟩ |
      ⟨_, _, c, x, y, p, q, _, hp, hq, hAcross, hAlong, hSample⟩
    · rw [hRefused] at hOk
      cases hOk
    · rw [hRefused] at hOk
      cases hOk
    · rw [hSample] at hOk
      cases hOk
      have hv : v < d.rowCount := ((marginal_answers hWord hBuild).sample_ok _ _ hAcross).1
      have hc : c < row.count := ((row_answers hWord hBuild hRow).sample_ok _ _ hAlong).1
      obtain ⟨row', hRow', hCount, _, _⟩ := conditional_eq_ok hBuild (rowCount_eq hBuild ▸ hv)
      obtain rfl : row = row' := Except.ok.inj (hRow.symm.trans hRow')
      rw [hCount, ← columns_eq hBuild] at hc
      exact ⟨product_isDensity hWord hBuild hRow hp hq, _, row, _, hAcross, hv, hRow, hAlong, hc,
        rfl, rfl⟩
  densityAt_ok := densityAt_isDensity hWord hBuild

end

/-! ## Every way to build a grid -/

/-- The grids that can be there: built from weights, by a pool of workers in any of its executions, or
from a list of rows.  Lengths are words of 64 bits. -/
inductive Constructed (d : GridDensity) : Prop
  /-- Built row by row. -/
  | serial {weights : List Single} {columns rows : Nat} (hWord : weights.length < 2 ^ 64)
      (hBuild : build weights columns rows = .ok d)
  /-- Built by a pool. -/
  | crew {threads : Nat} {weights : List Single} {columns rows : Nat}
      (hWord : weights.length < 2 ^ 64) (hReturns : Returns threads weights columns rows (.ok d))
  /-- Built from a list of rows. -/
  | table {table : List (List Single)} (hWord : table.flatten.length < 2 ^ 64)
      (hTable : ofTable table = .ok d)

theorem Constructed.exists_build {d : GridDensity} (hd : d.Constructed) :
    ∃ weights columns rows, weights.length < 2 ^ 64 ∧ build weights columns rows = .ok d := by
  cases hd with
  | serial hWord hBuild => exact ⟨_, _, _, hWord, hBuild⟩
  | crew hWord hReturns => exact ⟨_, _, _, hWord, (eq_build_of_returns hReturns).symm⟩
  | table hWord hTable => exact ⟨_, _, _, hWord, (build_of_ofTable hTable).2⟩

/-- **Which queries fail, and what the others answer.**  This holds of every density that can be there,
on one axis and on two, and of every argument.  A sample is refused exactly for NaN where the first
segment of the cumulative distribution in question has a width, a probability exactly behind the last
bin, and nothing else fails.  What is returned is in range: bins exist, densities and probabilities are
finite and not negative, and the rest of a variate lies in the half-open unit interval. -/
theorem queries_answer :
    (∀ (weights : List Single) (d : StepDensity), weights.length < 2 ^ 64 →
      StepDensity.build weights = .ok d → d.Answers) ∧
    ∀ d : GridDensity, d.Constructed → d.Answers := by
  refine ⟨fun weights d hWord hBuild => StepDensity.answers_of_build hWord hBuild, ?_⟩
  intro d hConstructed
  obtain ⟨weights, columns, rows, hWord, hBuild⟩ := hConstructed.exists_build
  exact answers_of_build hWord hBuild

/-- NaN is refused along the rows of a table, and not across them, since the weights of its first row
are zero. -/
theorem queries_answer_empty_row :
    ∃ d, ofTable [[.zero, .zero], [.one, .zero]] = .ok d ∧
      d.sample ⟨.nan, .nan⟩ = .error .positionNaN ∧
      d.marginal.sample .nan ≠ .error .positionNaN ∧
      (∃ q, d.densityAt ⟨.nan, .infinity⟩ = .ok q ∧ q.IsDensity) ∧
      ∃ e, StepDensity.build [.one, .zero] = .ok e ∧ e.sample .nan = .error .positionNaN ∧
        e.probability 2 = .error .indexNotBelowCount := by
  obtain ⟨hStep, hGrid⟩ := queries_answer
  obtain ⟨d, hTable⟩ : ∃ d, ofTable [[.zero, .zero], [.one, .zero]] = .ok d := ⟨_, rfl⟩
  obtain ⟨e, hBuild⟩ : ∃ e, StepDensity.build [.one, .zero] = .ok e := ⟨_, rfl⟩
  have hd := hGrid d (.table (by decide) hTable)
  have he := hStep [.one, .zero] e (by decide) hBuild
  cases hTable
  cases hBuild
  refine ⟨_, rfl, (hd.sample_error_iff _ _).mpr ⟨rfl, Or.inr ⟨rfl, 0, _, ?_, rfl, ?_⟩⟩, ?_,
    hd.densityAt_ok _, _, rfl, (he.sample_error_iff _ _).mpr ⟨rfl, rfl, ?_⟩,
    (he.probability_error_iff _ _).mpr ⟨rfl, ?_⟩⟩
  all_goals decide +kernel

end GridDensity

end StepSampling
