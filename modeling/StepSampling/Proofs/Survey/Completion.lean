import StepSampling.Proofs.Grid.Queries
import StepSampling.Proofs.Survey

/-!
# Surveys run to their end

A survey of a density that has been built meets no fault.  Variates are numbers, so every draw is
made; what is drawn is a bin of the density, so it can be counted; and every bin that is counted has
a probability.  This asks nothing of the number of bins but that it is a word: a sampled point may
fall into a bin next to the one it was drawn from, and it is counted where it falls.

A survey therefore fails only where its weights are refused, and its report can be written.
-/

namespace StepSampling.Survey

/-! ## Counting -/

theorem bump_of_lt {counts : Array Nat} {k : Nat} (hIndex : k < counts.size) :
    ∃ bumped, bump counts k = .ok bumped ∧ bumped.size = counts.size := by
  refine ⟨counts.modify k (· + 1), ?_, Array.size_modify⟩
  rw [bump, if_pos hIndex]

/-- The loop goes through if every draw is made and stays among the bins. -/
theorem tally_of_draw {draw : Generator → Except Fault (Nat × Generator)} {n : Nat}
    (hDraw : ∀ g, ∃ k after, draw g = .ok (k, after) ∧ k < n) (samples : Nat) (g : Generator)
    {counts : Array Nat} (hSize : counts.size = n) :
    ∃ counted after, tally draw samples g counts = .ok (counted, after) ∧ counted.size = n := by
  induction samples generalizing g counts with
  | zero => exact ⟨counts, g, rfl, hSize⟩
  | succ samples ih =>
      obtain ⟨k, after, hDrawn, hBin⟩ := hDraw g
      obtain ⟨bumped, hBump, hBumped⟩ := bump_of_lt (show k < counts.size by omega)
      obtain ⟨counted, last, hRest, hCounted⟩ := ih after (hBumped.trans hSize)
      refine ⟨counted, last, ?_, hCounted⟩
      rw [tally]
      simp only [hDrawn, hBump, hRest]

/-- There are statistics if something is expected of every bin. -/
theorem stats_of_expected {expected : Nat → Except Fault Double} {counts : Array Nat}
    (hExpected : ∀ i < counts.size, ∃ e, expected i = .ok e) (samples : Nat) :
    ∃ bins, stats expected samples counts = .ok bins := by
  cases hStats : stats expected samples counts with
  | ok bins => exact ⟨bins, rfl⟩
  | error f =>
      obtain ⟨⟨count, i⟩, hMem, hFault⟩ := exists_of_mapM_eq_error hStats
      have hIndex : i < counts.size := by
        have hEntry := List.mem_zipIdx_iff_getElem?.mp hMem
        obtain ⟨hLt, _⟩ := List.getElem?_eq_some_iff.mp hEntry
        rwa [Array.length_toList] at hLt
      obtain ⟨e, hValue⟩ := hExpected i hIndex
      dsimp only at hFault
      rw [hValue] at hFault
      cases hFault

/-- A survey goes through if its draws and its expectations do. -/
theorem survey_of_draw {draw : Generator → Except Fault (Nat × Generator)} {n : Nat}
    (hDraw : ∀ g, ∃ k after, draw g = .ok (k, after) ∧ k < n)
    {expected : Nat → Except Fault Double} (hExpected : ∀ i < n, ∃ e, expected i = .ok e)
    (samples : Nat) (g : Generator) (make : List BinStats → Report) :
    ∃ report after, (do
      let (counts, g) ← tally draw samples g (Array.replicate n 0)
      let bins ← stats expected samples counts
      return (make bins, g)) = .ok (report, after) := by
  obtain ⟨counts, after, hTally, hSize⟩ := tally_of_draw hDraw samples g Array.size_replicate
  obtain ⟨bins, hStats⟩ := stats_of_expected (by rw [hSize]; exact hExpected) samples
  refine ⟨make bins, after, ?_⟩
  rw [hTally]
  show (stats expected samples counts >>= _) = _
  rw [hStats]
  rfl

/-! ## Step densities -/

theorem ofDensity_eq_ok {weights : List Single} {d : StepDensity} (hWord : weights.length < 2 ^ 64)
    (hBuild : StepDensity.build weights = .ok d) (samples : Nat) (g : Generator) :
    ∃ report after, ofDensity d samples g = .ok (report, after) := by
  apply survey_of_draw
  · intro g
    obtain ⟨k, hBin, hDrawn⟩ := drawBin_eq_ok hWord hBuild g
    refine ⟨k, _, hDrawn, ?_⟩
    rw [StepDensity.count_eq hBuild]
    exact StepDensity.bin_lt (StepDensity.cdf_isCumulative hWord hBuild)
      (StepDensity.length_pos_of_build hBuild) hBin
  · intro i hIndex
    obtain ⟨p, hProbability, _⟩ := StepDensity.probability_of_lt hWord hBuild hIndex
    rw [expectedOfBin, hProbability]
    exact ⟨_, rfl⟩

/-! ## Grid densities -/

section

variable {weights : List Single} {columns rows : Nat} {d : GridDensity}
  (hWord : weights.length < 2 ^ 64) (hBuild : GridDensity.build weights columns rows = .ok d)

include hWord hBuild

/-- A point is always drawn, and it falls into a cell. -/
theorem drawCell_of_build (g : Generator) :
    ∃ k after, drawCell d g = .ok (k, after) ∧ k < d.columns * d.rowCount := by
  obtain ⟨⟨hx, _⟩, hy, _⟩ := g.nextPoint_range
  obtain ⟨hColumns, hRows, _, _, _, _⟩ := GridDensity.build_eq_ok hBuild
  rw [← GridDensity.columns_eq hBuild] at hColumns
  rw [← GridDensity.rowCount_eq hBuild] at hRows
  have hSample : ∃ p q, d.sample g.nextPoint.1 = .ok (p, q) := by
    cases hCase : d.sample g.nextPoint.1 with
    | ok pair => exact ⟨pair.1, pair.2, rfl⟩
    | error f =>
        obtain ⟨_, ⟨hNaN, _⟩ | ⟨hNaN, _⟩⟩ :=
          (GridDensity.sample_eq_error_iff hWord hBuild _ f).mp hCase
        · exact absurd (hx.2.1.symm.trans hNaN) Bool.false_ne_true
        · exact absurd (hy.2.1.symm.trans hNaN) Bool.false_ne_true
  obtain ⟨p, q, hSample⟩ := hSample
  refine ⟨Bins.binOf p.y d.rowCount * d.columns + Bins.binOf p.x d.columns, g.nextPoint.2, ?_, ?_⟩
  · show (d.sample g.nextPoint.1 >>= _) = _
    rw [hSample]
    show (Bins.bin p.y d.rowCount >>= _) = _
    rw [Bins.bin, if_neg (by omega)]
    show (Bins.bin p.x d.columns >>= _) = _
    rw [Bins.bin, if_neg (by omega)]
    rfl
  · have hRow := Bins.binOf_lt p.y hRows
    have hColumn := Bins.binOf_lt p.x hColumns
    have hEnd : (Bins.binOf p.y d.rowCount + 1) * d.columns ≤ d.rowCount * d.columns :=
      Nat.mul_le_mul_right d.columns hRow
    rw [Nat.succ_mul] at hEnd
    rw [Nat.mul_comm d.columns]
    omega

theorem ofGrid_eq_ok (samples : Nat) (g : Generator) :
    ∃ report after, ofGrid d samples g = .ok (report, after) := by
  apply survey_of_draw (drawCell_of_build hWord hBuild)
  intro i _
  obtain ⟨q, hDensity, _⟩ := GridDensity.densityAt_isDensity hWord hBuild
    ⟨centre (i % d.columns) d.columns, centre (i / d.columns) d.rowCount⟩
  unfold expectedOfCell
  dsimp only
  rw [hDensity]
  exact ⟨_, rfl⟩

end

/-! ## Surveys of weights -/

/-- A survey of a list of weights meets no fault. -/
theorem row_ne_fault {weights : List Single} (hWord : weights.length < 2 ^ 64) (samples : Nat)
    (g : Generator) (f : Fault) : (row weights samples g).1 ≠ .error (.fault f) := by
  intro hFault
  unfold row at hFault
  cases hBuild : StepDensity.build weights with
  | error r =>
      rw [hBuild] at hFault
      cases hFault
  | ok d =>
      obtain ⟨report, after, hSurvey⟩ := ofDensity_eq_ok hWord hBuild samples g
      simp only [hBuild, hSurvey] at hFault
      cases hFault

theorem mapError_refused_ne_fault {α : Type} {result : Except Refusal α} {f : Fault} :
    result.mapError SurveyError.refused ≠ .error (.fault f) := by
  cases result <;> rintro ⟨⟩

/-- The density of a table is built or refused, without a fault. -/
theorem buildTable_ne_fault (rows : List (List Single)) (threads : Nat) (f : Fault) :
    buildTable rows threads ≠ .error (.fault f) := by
  unfold buildTable
  dsimp only
  split
  · split
    · rintro ⟨⟩
    · exact mapError_refused_ne_fault
  · exact mapError_refused_ne_fault

/-- A survey of a table meets no fault. -/
theorem table_ne_fault {rows : List (List Single)} (hWord : rows.flatten.length < 2 ^ 64)
    (samples threads : Nat) (g : Generator) (f : Fault) :
    (table rows samples threads g).1 ≠ .error (.fault f) := by
  intro hFault
  unfold table at hFault
  cases hTable : buildTable rows threads with
  | error e =>
      simp only [hTable] at hFault
      cases hFault
      exact buildTable_ne_fault rows threads f hTable
  | ok d =>
      obtain ⟨_, hBuild⟩ := build_of_buildTable hTable
      obtain ⟨report, after, hSurvey⟩ := ofGrid_eq_ok hWord hBuild samples g
      simp only [hTable, hSurvey] at hFault
      cases hFault

/-! ## Reports -/

theorem exists_text {report : Report} (hColumns : 1 ≤ report.columns) :
    ∃ text, report.text = .ok text := by
  rw [Report.text, if_neg (by omega)]
  exact ⟨_, rfl⟩

/-- The report on a list of weights can be written. -/
theorem exists_text_of_row {weights : List Single} {samples : Nat} {g : Generator} {report : Report}
    (hReport : (row weights samples g).1 = .ok report) : ∃ text, report.text = .ok text := by
  obtain ⟨d, counts, bins, hBuild, _, _, rfl⟩ :=
    row_eq_ok (show row weights samples g = (.ok report, _) from Prod.ext hReport rfl)
  apply exists_text
  show 1 ≤ d.count
  rw [StepDensity.count_eq hBuild]
  exact StepDensity.length_pos_of_build hBuild

/-- The report on a table can be written. -/
theorem exists_text_of_table {rows : List (List Single)} {samples threads : Nat} {g : Generator}
    {report : Report} (hReport : (table rows samples threads g).1 = .ok report) :
    ∃ text, report.text = .ok text := by
  obtain ⟨d, counts, bins, _, hBuild, _, _, rfl⟩ :=
    table_eq_ok (show table rows samples threads g = (.ok report, _) from Prod.ext hReport rfl)
  apply exists_text
  show 1 ≤ d.columns
  rw [GridDensity.columns_eq hBuild]
  exact (GridDensity.build_eq_ok hBuild).1

end StepSampling.Survey
