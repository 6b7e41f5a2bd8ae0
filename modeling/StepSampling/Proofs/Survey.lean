import StepSampling.Survey
import StepSampling.Proofs.Grid.Construction
import StepSampling.Proofs.Density.Selection

/-!
# What a survey counts

A survey draws bins one after another and threads the generator through.  A run of its loop is a chain
of draws, and the count of a bin is the number of times that the chain has drawn it.

Variates lie in the half-open unit interval, so a bin of weight zero is never drawn where there is an
integral.  In a grid the row is selected by its integral first; a row that is selected has one, and the
column that it selects has a positive weight.  The sampled point falls back into that cell, and its
place in the report is the place of its weight in the table.
-/

namespace StepSampling

/-! ## Variates -/

namespace Generator

theorem unitFactor_finite : unitFactor.isFinite = true ∧ 0 ≤ unitFactor.value := by
  obtain ⟨hFinite, hOne⟩ := Binary.count_isFinite (F := .single) UInt32.size (by decide) (by decide)
  have hFactor := Binary.div_rounds Binary.one _ Binary.isFinite_one hFinite (by linarith)
  rw [Binary.value_one] at hFactor
  have hLow : (0 : ℚ) ≤ 1 / (Binary.ofNat .single UInt32.size).value := by positivity
  refine ⟨hFactor.isFinite hLow ?_, hFactor.value_nonneg hLow⟩
  rw [div_le_iff₀ (by linarith)]
  linarith

/-- A variate lies in the half-open unit interval. -/
theorem unitOf_range (word : UInt32) : Binary.zero ≤ unitOf word ∧ unitOf word < Binary.one := by
  obtain ⟨hFactor, hFactorLow⟩ := unitFactor_finite
  have hWord := Binary.ofNat_rounds (F := .single) word.toNat
  have hWordLow : (0 : ℚ) ≤ word.toNat := Nat.cast_nonneg _
  have hWordFinite := hWord.isFinite hWordLow (by
    have hSize := word.toNat_lt
    exact_mod_cast (by omega : word.toNat ≤ 2 ^ 100))
  have hProduct := Binary.mul_rounds _ _ hWordFinite hFactor
  exact lesser_belowOne_range
    (hProduct.value_nonneg (mul_nonneg (hWord.value_nonneg hWordLow) hFactorLow))

theorem nextUnit_range (g : Generator) :
    Binary.zero ≤ g.nextUnit.1 ∧ g.nextUnit.1 < Binary.one := unitOf_range _

theorem nextPoint_range (g : Generator) :
    (Binary.zero ≤ g.nextPoint.1.x ∧ g.nextPoint.1.x < Binary.one) ∧
      Binary.zero ≤ g.nextPoint.1.y ∧ g.nextPoint.1.y < Binary.one :=
  ⟨unitOf_range _, unitOf_range _⟩

end Generator

namespace Survey

/-! ## Counting -/

/-- A chain of draws: the bins in the order in which they are drawn, and the generator after them. -/
inductive Draws (draw : Generator → Except Fault (Nat × Generator)) :
    Generator → List Nat → Generator → Prop
  /-- Nothing is drawn. -/
  | none (g : Generator) : Draws draw g [] g
  /-- One bin is drawn before the others. -/
  | next {g after last : Generator} {k : Nat} {ks : List Nat} (hDraw : draw g = .ok (k, after))
      (hRest : Draws draw after ks last) : Draws draw g (k :: ks) last

section

variable {draw : Generator → Except Fault (Nat × Generator)} {g after : Generator}

theorem Draws.exists_draw {ks : List Nat} (hDraws : Draws draw g ks after) {k : Nat}
    (hMem : k ∈ ks) : ∃ g g', draw g = .ok (k, g') := by
  induction hDraws with
  | none => cases hMem
  | next hDraw _ ih =>
      rcases List.mem_cons.mp hMem with rfl | hRest
      · exact ⟨_, _, hDraw⟩
      · exact ih hRest

/-- One bin is counted, the others keep their counts. -/
theorem bump_eq_ok {counts bumped : Array Nat} {k : Nat} (hBump : bump counts k = .ok bumped) :
    bumped.size = counts.size ∧
      ∀ i, bumped[i]? = counts[i]?.map fun n => n + [k].count i := by
  unfold bump at hBump
  split at hBump
  · next hIndex =>
    cases hBump
    refine ⟨Array.size_modify, ?_⟩
    intro i
    rw [Array.getElem?_modify, List.count_singleton]
    by_cases hSame : k = i
    · simp [hSame]
    · simp [hSame]
  · cases hBump

/-- The loop is a chain of draws, and every count grows by the number of times that its bin has been
drawn. -/
theorem tally_eq_ok {samples : Nat} {counts counted : Array Nat}
    (hTally : tally draw samples g counts = .ok (counted, after)) :
    ∃ ks, Draws draw g ks after ∧ ks.length = samples ∧ counted.size = counts.size ∧
      ∀ i, counted[i]? = counts[i]?.map fun n => n + ks.count i := by
  induction samples generalizing g counts with
  | zero =>
      cases hTally
      refine ⟨[], .none _, rfl, rfl, ?_⟩
      intro i
      simp
  | succ samples ih =>
      rw [tally] at hTally
      cases hDraw : draw g with
      | error f =>
          simp only [hDraw] at hTally
          cases hTally
      | ok drawn =>
          obtain ⟨k, g'⟩ := drawn
          simp only [hDraw] at hTally
          cases hBump : bump counts k with
          | error f =>
              rw [hBump] at hTally
              cases hTally
          | ok bumped =>
              rw [hBump] at hTally
              obtain ⟨hSize, hStep⟩ := bump_eq_ok hBump
              obtain ⟨ks, hRest, hLength, hTotal, hCounts⟩ := ih hTally
              refine ⟨k :: ks, .next hDraw hRest, by rw [List.length_cons, hLength],
                hTotal.trans hSize, ?_⟩
              intro i
              have hSplit : ([k] ++ ks).count i = [k].count i + ks.count i := List.count_append
              rw [List.singleton_append] at hSplit
              rw [hCounts, hStep, Option.map_map, hSplit]
              congr 1
              funext n
              exact Nat.add_assoc _ _ _

/-- The statistics of a bin have the share of its count. -/
theorem stats_eq_ok {expected : Nat → Except Fault Double} {samples : Nat} {counts : Array Nat}
    {bins : List BinStats} (hStats : stats expected samples counts = .ok bins) :
    bins.length = counts.size ∧ ∀ i count, counts[i]? = some count →
      ∃ e, expected i = .ok e ∧ bins[i]? = some ⟨e, share count samples⟩ := by
  obtain ⟨hLength, hBins⟩ := getElem?_of_mapM_eq_ok hStats
  refine ⟨by rw [hLength, List.length_zipIdx, Array.length_toList], ?_⟩
  intro i count hCount
  obtain ⟨b, hb, hExpected⟩ := hBins i (count, i) (by simp [hCount])
  obtain ⟨e, hValue, hPair⟩ := exists_of_bind_eq_ok hExpected
  cases hPair
  exact ⟨e, hValue, hb⟩

/-- The share of a bin that was not drawn is zero, of however many samples. -/
theorem share_zero (samples : Nat) : share 0 samples = Binary.zero := by
  have hZero : Binary.ofNat .double 0 = Binary.zero := by decide
  have hSamples := Binary.ofNat_rounds (F := .double) (max samples 1)
  rw [share, hZero]
  by_cases hFinite : (Binary.ofNat .double (max samples 1)).isFinite = true
  · apply Binary.zero_div_eq_zero hFinite
    have hOne := hSamples.le_value (y := Binary.one) rfl (by
      rw [Binary.value_one]
      exact_mod_cast Nat.le_max_right samples 1)
    rw [Binary.value_one] at hOne
    linarith
  · rw [Binary.eq_infinity hSamples.1 rfl hFinite]
    decide

/-- A survey is a tally, followed by the statistics of the bins. -/
theorem survey_eq_ok {n samples : Nat} {expected : Nat → Except Fault Double}
    {make : List BinStats → Report} {report : Report}
    (hOk : (do
      let (counts, g) ← tally draw samples g (Array.replicate n 0)
      let bins ← stats expected samples counts
      return (make bins, g)) = .ok (report, after)) :
    ∃ counts bins, tally draw samples g (Array.replicate n 0) = .ok (counts, after) ∧
      stats expected samples counts = .ok bins ∧ report = make bins := by
  obtain ⟨⟨counts, g'⟩, hTally, hRest⟩ := exists_of_bind_eq_ok hOk
  obtain ⟨bins, hStats, hPair⟩ := exists_of_bind_eq_ok hRest
  cases hPair
  exact ⟨counts, bins, hTally, hStats, rfl⟩

/-- If only bins of positive weight are drawn, a bin of weight zero is not observed. -/
theorem observed_of_weight_zero {weights : List Single} {samples : Nat} {counts : Array Nat}
    (hTally : tally draw samples g (Array.replicate weights.length 0) = .ok (counts, after))
    (hDrawn : ∀ g k g', draw g = .ok (k, g') → ∃ w, weights[k]? = some w ∧ Binary.zero < w)
    {expected : Nat → Except Fault Double} {bins : List BinStats}
    (hStats : stats expected samples counts = .ok bins) {i : Nat} {w : Single}
    (hWeight : weights[i]? = some w) (hZero : w.isZero = true) :
    ∃ b, bins[i]? = some b ∧ b.observed = Binary.zero := by
  obtain ⟨ks, hDraws, _, _, hCounts⟩ := tally_eq_ok hTally
  have hNone : ks.count i = 0 := by
    apply List.count_eq_zero.mpr
    intro hMem
    obtain ⟨g₁, g₂, hDraw⟩ := hDraws.exists_draw hMem
    obtain ⟨w', hWeight', hPos⟩ := hDrawn g₁ i g₂ hDraw
    rw [hWeight, Option.some.injEq] at hWeight'
    subst hWeight'
    exact (Binary.zero_lt_iff.mp hPos).2.ne' ((Binary.isZero_iff w).mp hZero).2
  have hCount : counts[i]? = some 0 := by
    obtain ⟨hIndex, _⟩ := List.getElem?_eq_some_iff.mp hWeight
    rw [hCounts, Array.getElem?_replicate, if_pos hIndex, Option.map_some, hNone]
  obtain ⟨e, _, hb⟩ := (stats_eq_ok hStats).2 i 0 hCount
  exact ⟨_, hb, share_zero samples⟩

end

/-! ## Step densities -/

section

variable {weights : List Single} {d : StepDensity} (hWord : weights.length < 2 ^ 64)
  (hBuild : StepDensity.build weights = .ok d)

include hWord hBuild

/-- A draw is always made, with one variate. -/
theorem drawBin_eq_ok (g : Generator) :
    ∃ k, d.bin g.nextUnit.1 = .ok k ∧ drawBin d g = .ok (k, g.nextUnit.2) := by
  obtain ⟨k, hBin, _⟩ := StepDensity.exists_bin hWord hBuild g.nextUnit.1
  refine ⟨k, hBin, ?_⟩
  show (d.bin g.nextUnit.1).map _ = _
  rw [hBin]
  rfl

/-- Where there is an integral, a bin of weight zero is not drawn. -/
theorem drawBin_weight_pos (hNonzero : d.integral.isZero = false) {g after : Generator} {k : Nat}
    (hDraw : drawBin d g = .ok (k, after)) : ∃ w, weights[k]? = some w ∧ Binary.zero < w := by
  obtain ⟨hLow, hHigh⟩ := g.nextUnit_range
  obtain ⟨k', hBin, hDrawn⟩ := drawBin_eq_ok hWord hBuild g
  rw [hDrawn] at hDraw
  cases hDraw
  exact StepDensity.weight_pos_of_bin hWord hBuild hNonzero hLow hHigh hBin

end

/-! ## Grid densities -/

section

variable {weights : List Single} {columns rows : Nat} {d : GridDensity}
  (hBuild : GridDensity.build weights columns rows = .ok d) (hColumns : columns ≤ 2 ^ 23)
  (hRows : rows ≤ 2 ^ 23)

include hBuild hColumns hRows

/-- A draw is always made, with two variates, and its cell is the one that they select: the row from
the marginal, the column from that row. -/
theorem drawCell_eq_ok (g : Generator) :
    ∃ v c row, d.marginal.bin g.nextPoint.1.x = .ok v ∧ v < rows ∧ d.rows[v]? = some row ∧
      StepDensity.build ((weights.drop (v * columns)).take columns) = .ok row ∧
      row.bin g.nextPoint.1.y = .ok c ∧ c < columns ∧
      drawCell d g = .ok (v * columns + c, g.nextPoint.2) := by
  obtain ⟨⟨hxLow, _⟩, hyLow, _⟩ := g.nextPoint_range
  obtain ⟨x, y, v, c, row, p, q, hSelected, hv, hRow, hRowBuild, hColumn, hc, _, _, hSample, _, _,
    hx, hy⟩ := GridDensity.sample_eq_ok hBuild hColumns hRows hxLow.2.1 hyLow.2.1
  refine ⟨v, c, row, hSelected, hv, hRow, hRowBuild, hColumn, hc, ?_⟩
  show (d.sample g.nextPoint.1 >>= _) = _
  rw [hSample, GridDensity.columns_eq hBuild, GridDensity.rowCount_eq hBuild]
  show (Bins.bin y rows >>= _) = _
  rw [Bins.bin, if_neg (by omega), hy]
  show (Bins.bin x columns >>= _) = _
  rw [Bins.bin, if_neg (by omega), hx]
  rfl

/-- Where there is an integral, a cell of weight zero is not drawn. -/
theorem drawCell_weight_pos (hNonzero : d.integral.isZero = false) {g after : Generator} {k : Nat}
    (hDraw : drawCell d g = .ok (k, after)) : ∃ w, weights[k]? = some w ∧ Binary.zero < w := by
  obtain ⟨⟨hxLow, hxHigh⟩, hyLow, hyHigh⟩ := g.nextPoint_range
  obtain ⟨_, _, hSize, hCount, _, hMarginal⟩ := GridDensity.build_eq_ok hBuild
  obtain ⟨v, c, row, hSelected, hv, hRow, hRowBuild, hColumn, hc, hDrawn⟩ :=
    drawCell_eq_ok hBuild hColumns hRows g
  rw [hDrawn] at hDraw
  cases hDraw
  -- the marginal selects a row with an integral, and the row a column with a weight
  have hLength : (d.rows.toList.map (·.integral)).length = rows := by
    rw [List.length_map, Array.length_toList, hCount]
  obtain ⟨integral, hIntegral, hIntegralPos⟩ :=
    StepDensity.weight_pos_of_bin (by omega) hMarginal hNonzero hxLow hxHigh hSelected
  rw [List.getElem?_map, Array.getElem?_toList, hRow, Option.map_some, Option.some.injEq]
    at hIntegral
  subst hIntegral
  have hRowNonzero : row.integral.isZero = false := by
    rw [Bool.eq_false_iff, ne_eq, Binary.isZero_iff, not_and]
    exact fun _ => (Binary.zero_lt_iff.mp hIntegralPos).2.ne'
  have hStretch := length_stretch hSize hv
  obtain ⟨w, hWeight, hPos⟩ :=
    StepDensity.weight_pos_of_bin (by omega) hRowBuild hRowNonzero hyLow hyHigh hColumn
  rw [getElem?_stretch weights hc] at hWeight
  exact ⟨w, hWeight, hPos⟩

end

/-! ## Surveys of weights -/

theorem eq_ok_of_conclude {g after : Generator} {report : Report}
    {result : Except Fault (Report × Generator)} (hOk : conclude g result = (.ok report, after)) :
    result = .ok (report, after) := by
  cases result with
  | error f => cases hOk
  | ok pair =>
      cases hOk
      rfl

/-- The report on a list of weights comes from the density that is built from them. -/
theorem row_eq_ok {weights : List Single} {samples : Nat} {g after : Generator} {report : Report}
    (hSurvey : row weights samples g = (.ok report, after)) :
    ∃ d counts bins, StepDensity.build weights = .ok d ∧
      tally (drawBin d) samples g (Array.replicate d.count 0) = .ok (counts, after) ∧
      stats (expectedOfBin d) samples counts = .ok bins ∧
      report = ⟨d.count, 1, d.integral, samples, bins⟩ := by
  unfold row at hSurvey
  cases hBuild : StepDensity.build weights with
  | error r =>
      rw [hBuild] at hSurvey
      cases hSurvey
  | ok d =>
      rw [hBuild] at hSurvey
      obtain ⟨counts, bins, hTally, hStats, hReport⟩ := survey_eq_ok (eq_ok_of_conclude hSurvey)
      exact ⟨d, counts, bins, rfl, hTally, hStats, hReport⟩

theorem eq_ok_of_mapError {ε ε' α : Type} {f : ε → ε'} {result : Except ε α} {a : α}
    (hOk : result.mapError f = .ok a) : result = .ok a := by
  cases result with
  | error e => cases hOk
  | ok b =>
      cases hOk
      rfl

/-- With or without a pool, the density of a table is built from the concatenation of its rows. -/
theorem build_of_buildTable {table : List (List Single)} {threads : Nat} {d : GridDensity}
    (hTable : buildTable table threads = .ok d) :
    (∀ row ∈ table, row.length = GridDensity.width table) ∧
      GridDensity.build table.flatten (GridDensity.width table) table.length = .ok d := by
  unfold buildTable at hTable
  dsimp only at hTable
  split at hTable
  · split at hTable
    · cases hTable
    · next hEqual =>
      have hReturns := GridDensity.returns_buildWith threads table.flatten
        (GridDensity.width table) table.length
      refine ⟨?_, ?_⟩
      · simpa using hEqual
      · rw [← GridDensity.eq_build_of_returns hReturns]
        exact eq_ok_of_mapError hTable
  · exact GridDensity.build_of_ofTable (eq_ok_of_mapError hTable)

/-- The report on a table comes from the density that is built from its rows, which have equal
lengths. -/
theorem table_eq_ok {rows : List (List Single)} {samples threads : Nat} {g after : Generator}
    {report : Report} (hSurvey : table rows samples threads g = (.ok report, after)) :
    ∃ d counts bins, (∀ row ∈ rows, row.length = GridDensity.width rows) ∧
      GridDensity.build rows.flatten (GridDensity.width rows) rows.length = .ok d ∧
      tally (drawCell d) samples g (Array.replicate (d.columns * d.rowCount) 0) =
        .ok (counts, after) ∧
      stats (expectedOfCell d) samples counts = .ok bins ∧
      report = ⟨d.columns, d.rowCount, d.integral, samples, bins⟩ := by
  unfold table at hSurvey
  cases hTable : buildTable rows threads with
  | error e =>
      rw [hTable] at hSurvey
      cases hSurvey
  | ok d =>
      rw [hTable] at hSurvey
      obtain ⟨counts, bins, hTally, hStats, hReport⟩ := survey_eq_ok (eq_ok_of_conclude hSurvey)
      obtain ⟨hEqual, hBuild⟩ := build_of_buildTable hTable
      exact ⟨d, counts, bins, hEqual, hBuild, hTally, hStats, hReport⟩

/-! ## Weights of zero -/

/-- A report that passes a test, taken out of the result that it came with. -/
private theorem exists_report (result : Except SurveyError Report × Generator)
    (test : Report → Bool) (hOk : result.1.toOption.any test = true) :
    ∃ report after, result = (.ok report, after) ∧ test report = true := by
  obtain ⟨outcome, after⟩ := result
  cases outcome with
  | error e => cases hOk
  | ok report => exact ⟨report, after, rfl, hOk⟩

/-- **Weights of zero are not observed.**  Whatever the generator, the number of samples and the number
of workers, in a report with an integral every bin of weight zero has an observed share of exactly zero.
In a grid of up to `2 ^ 23` columns and rows the bin of a cell stands in the place of its weight. -/
theorem zero_weights_unobserved (samples threads : Nat) (g : Generator) :
    (∀ (weights : List Single) (report : Report) (after : Generator), weights.length < 2 ^ 64 →
      row weights samples g = (.ok report, after) → report.integral.isZero = false →
        ∀ (i : Nat) (w : Single), weights[i]? = some w → w.isZero = true →
          ∃ b, report.bins[i]? = some b ∧ b.observed = Binary.zero) ∧
    ∀ (rows : List (List Single)) (report : Report) (after : Generator),
      table rows samples threads g = (.ok report, after) → report.integral.isZero = false →
        report.columns ≤ 2 ^ 23 → report.rows ≤ 2 ^ 23 →
          ∀ (v c : Nat) (weights : List Single) (w : Single), rows[v]? = some weights →
            weights[c]? = some w → w.isZero = true → report.columns = weights.length ∧
              ∃ b, report.bins[v * report.columns + c]? = some b ∧
                b.observed = Binary.zero := by
  constructor
  · intro weights report after hWord hSurvey hNonzero i w hWeight hZero
    obtain ⟨d, counts, bins, hBuild, hTally, hStats, rfl⟩ := row_eq_ok hSurvey
    rw [StepDensity.count_eq hBuild] at hTally
    exact observed_of_weight_zero hTally
      (fun _ _ _ hDraw => drawBin_weight_pos hWord hBuild hNonzero hDraw) hStats hWeight hZero
  · intro rows report after hSurvey hNonzero hColumns hRows v c weights w hRow hWeight hZero
    obtain ⟨d, counts, bins, hEqual, hBuild, hTally, hStats, rfl⟩ := table_eq_ok hSurvey
    obtain ⟨_, _, hSize, _, _, _⟩ := GridDensity.build_eq_ok hBuild
    simp only [GridDensity.columns_eq hBuild, GridDensity.rowCount_eq hBuild] at hColumns hRows ⊢
    rw [GridDensity.columns_eq hBuild, GridDensity.rowCount_eq hBuild, hSize] at hTally
    refine ⟨(hEqual weights (List.mem_of_getElem? hRow)).symm, ?_⟩
    exact observed_of_weight_zero hTally
      (fun _ _ _ hDraw => drawCell_weight_pos hBuild hColumns hRows hNonzero hDraw) hStats
      (getElem?_flatten_of_equal hEqual hRow hWeight) hZero

/-- Two samples of a row that starts with a zero, and two of a table with zeros in both rows, built by
two workers. -/
theorem zero_weights_unobserved_seven :
    (∃ report after b, row [.zero, .one] 2 (.ofSeed 7) = (.ok report, after) ∧
      report.bins[0]? = some b ∧ b.observed = .zero) ∧
    ∃ report after b, table [[.zero, .zero], [.one, .zero]] 2 2 (.ofSeed 7) = (.ok report, after) ∧
      report.bins[1 * report.columns + 1]? = some b ∧ b.observed = .zero := by
  obtain ⟨hRow, hTable⟩ := zero_weights_unobserved 2 2 (.ofSeed 7)
  constructor
  · obtain ⟨report, after, hSurvey, hIntegral⟩ :=
      exists_report (row [.zero, .one] 2 (.ofSeed 7)) (fun r => !r.integral.isZero)
        (by decide +kernel)
    obtain ⟨b, hb, hZero⟩ := hRow [.zero, .one] report after (by decide) hSurvey
      (by simpa using hIntegral) 0 .zero rfl rfl
    exact ⟨report, after, b, hSurvey, hb, hZero⟩
  · obtain ⟨report, after, hSurvey, hTest⟩ :=
      exists_report (table [[.zero, .zero], [.one, .zero]] 2 2 (.ofSeed 7))
        (fun r => !r.integral.isZero && r.columns ≤ 2 ^ 23 && r.rows ≤ 2 ^ 23)
        (by decide +kernel)
    simp only [Bool.and_eq_true, Bool.not_eq_true', decide_eq_true_eq] at hTest
    obtain ⟨_, b, hb, hZero⟩ := hTable [[.zero, .zero], [.one, .zero]] report after hSurvey hTest.1.1
      hTest.1.2 hTest.2 1 1 [.one, .zero] .zero rfl rfl rfl
    exact ⟨report, after, b, hSurvey, hb, hZero⟩

end Survey

end StepSampling
