import Mathlib.Algebra.BigOperators.Group.Finset.Basic
import StepSampling.Proofs.Bins.Floor
import StepSampling.Proofs.Density.Inversion
import StepSampling.Proofs.Survey.Determinism

/-!
# The bins of a report

A report lists its bins row by row, and each of them takes two ways through rounded coordinates.  What is
expected of a cell is read at its centre, which has to fall into the cell again; what is observed is
counted where sampled points fall, which has to be the cell that their variates select.  The first holds
up to `2 ^ 22` columns and rows, because then the rounded centre is off the exact one by no more than
a quarter of a cell, the second up to `2 ^ 23`.

So entry `i` of a report on a table of `n` columns speaks of the weight in row `i / n` and column `i % n`
in both respects, and every sample is counted in one entry.
-/

namespace StepSampling

namespace Survey

/-! ## Hits -/

/-- How many of the first draws select the given thing. -/
def hits {β : Type} [DecidableEq β] (selected : Nat → Except Fault β) (samples : Nat) (b : β) : Nat :=
  (List.range samples).countP fun j => selected j = .ok b

theorem hits_congr {β γ : Type} [DecidableEq β] [DecidableEq γ] {first : Nat → Except Fault β}
    {second : Nat → Except Fault γ} {b : β} {c : γ}
    (hSame : ∀ j, first j = .ok b ↔ second j = .ok c) (samples : Nat) :
    hits first samples b = hits second samples c := by
  simp only [hits, hSame]

/-- If every draw selects one of the bins, the hits of the bins add up to the draws. -/
theorem sum_hits {selected : Nat → Except Fault Nat} {n : Nat}
    (hSelected : ∀ j, ∃ i < n, selected j = .ok i) (samples : Nat) :
    ∑ i ∈ Finset.range n, hits selected samples i = samples := by
  induction samples with
  | zero => simp [hits]
  | succ samples ih =>
      obtain ⟨k, hBin, hDrawn⟩ := hSelected samples
      have hStep : ∀ i, hits selected (samples + 1) i =
          hits selected samples i + if k = i then 1 else 0 := by
        intro i
        simp [hits, List.range_succ, List.countP_append, List.countP_singleton, hDrawn]
      simp only [hStep, Finset.sum_add_distrib, ih, Finset.sum_ite_eq, Finset.mem_range, if_pos hBin]

/-- A tally of draws that read off the generator counts the hits of each bin. -/
theorem hits_of_tally {α : Type} {draw : Generator → Except Fault (Nat × Generator)} {n size : Nat}
    {variates : Generator → α} {bin : α → Except Fault Nat} (hReads : ReadsOff draw n variates bin)
    {samples : Nat} {g last : Generator} {counts : Array Nat}
    (hTally : tally draw samples g (Array.replicate size 0) = .ok (counts, last)) :
    counts.size = size ∧ ∀ i < size,
      counts[i]? = some (hits (fun j => bin (variates (g.after (n * j)))) samples i) := by
  obtain ⟨ks, hDraws, rfl, hSize, hCounts⟩ := tally_eq_ok hTally
  refine ⟨hSize.trans Array.size_replicate, ?_⟩
  intro i hIndex
  have hCount : ks.count i = hits (fun j => bin (variates (g.after (n * j)))) ks.length i := by
    have hInjective : Function.Injective (Except.ok : Nat → Except Fault Nat) :=
      fun _ _ hSame => Except.ok.inj hSame
    rw [← List.count_map_of_injective ks _ hInjective, (hDraws.eq_map hReads).2,
      List.count_eq_countP, List.countP_map]
    rfl
  rw [hCounts, Array.getElem?_replicate, if_pos hIndex, Option.map_some, Nat.zero_add, hCount]

end Survey

/-! ## What a draw selects -/

/-- The variate of a draw, the first having the number zero, where a draw takes one word. -/
def Generator.unitAt (g : Generator) (j : Nat) : Single := (g.after j).nextUnit.1

/-- The pair of variates of a draw, where a draw takes two words. -/
def Generator.pointAt (g : Generator) (j : Nat) : Point Single := (g.after (2 * j)).nextPoint.1

theorem Generator.isNaN_pointAt (g : Generator) (j : Nat) :
    (g.pointAt j).x.isNaN = false ∧ (g.pointAt j).y.isNaN = false := by
  obtain ⟨⟨hx, _⟩, hy, _⟩ := (g.after (2 * j)).nextPoint_range
  exact ⟨hx.2.1, hy.2.1⟩

/-- The bin that is selected with a variate. -/
def StepDensity.selected (d : StepDensity) (u : Single) : Except Fault Nat :=
  (d.select u).map (·.bin)

theorem StepDensity.selected_eq {weights : List Single} {d : StepDensity}
    (hWord : weights.length < 2 ^ 64) (hBuild : build weights = .ok d) (u : Single) :
    d.selected u = d.bin u := by
  obtain ⟨s, _, hSelect, _⟩ := selectRemapped_eq_ok hWord hBuild u
  rw [selected, hSelect, bin_of_select hSelect]
  rfl

theorem StepDensity.bin_of_sample {d : StepDensity} {u : Single} {draw : Draw}
    (hSample : d.sample u = .ok draw) : d.bin u = .ok draw.bin := by
  obtain ⟨k, hBin, hRest⟩ := exists_of_bind_eq_ok hSample
  obtain ⟨t, _, hPlaced⟩ := exists_of_bind_eq_ok hRest
  split at hPlaced
  · cases hPlaced
  · obtain ⟨x, _, hConfined⟩ := exists_of_bind_eq_ok hPlaced
    obtain ⟨q, _, hDraw⟩ := exists_of_bind_eq_ok hConfined
    cases hDraw
    exact hBin

/-- The row that the marginal selects with the first variate, and the column that this row selects with
the second. -/
def GridDensity.selected (d : GridDensity) (u : Point Single) : Except Fault (Nat × Nat) := do
  let across ← d.marginal.sample u.x
  let row ← d.conditional across.bin
  let along ← row.sample u.y
  return (across.bin, along.bin)

namespace Survey

section

variable {weights : List Single} {columns rows : Nat} {d : GridDensity}
  (hBuild : GridDensity.build weights columns rows = .ok d) (hColumns : columns ≤ 2 ^ 22)
  (hRows : rows ≤ 2 ^ 22)

include hBuild hColumns hRows

/-- A sampled point falls into the cell that its variates select. -/
theorem selected_eq_ok {u : Point Single} (hx : u.x.isNaN = false) (hy : u.y.isNaN = false) :
    ∃ v c, d.selected u = .ok (v, c) ∧ c < columns ∧ v * columns + c < columns * rows ∧
      cellIndex d u = .ok (v * columns + c) := by
  obtain ⟨x, y, v, c, row, p, q, hAcross, hv, hEntry, _, hAlong, hc, _, _, hSample, _, _, hxBin,
    hyBin⟩ := GridDensity.sample_eq_ok hBuild (by omega) (by omega) hx hy
  refine ⟨v, c, ?_, hc, ?_, ?_⟩
  · obtain ⟨across, hAcrossSample, hRest⟩ := exists_of_bind_eq_ok hSample
    obtain ⟨row', hConditional, hLast⟩ := exists_of_bind_eq_ok hRest
    obtain ⟨along, hAlongSample, _⟩ := exists_of_bind_eq_ok hLast
    obtain rfl : across.bin = v :=
      Except.ok.inj ((StepDensity.bin_of_sample hAcrossSample).symm.trans hAcross)
    obtain rfl : row' = row := by
      rw [GridDensity.conditional, fetch_eq_ok_iff, hEntry] at hConditional
      exact (Option.some.inj hConditional).symm
    obtain rfl : along.bin = c :=
      Except.ok.inj ((StepDensity.bin_of_sample hAlongSample).symm.trans hAlong)
    rw [GridDensity.selected, hAcrossSample]
    show (d.conditional across.bin >>= _) = _
    rw [hConditional]
    show (row'.sample u.y >>= _) = _
    rw [hAlongSample]
    rfl
  · have hEnd : (v + 1) * columns ≤ rows * columns := Nat.mul_le_mul_right columns hv
    rw [Nat.succ_mul, Nat.mul_comm rows] at hEnd
    omega
  · rw [cellIndex, hSample, GridDensity.columns_eq hBuild, GridDensity.rowCount_eq hBuild]
    show (Bins.bin y rows >>= _) = _
    rw [Bins.bin, if_neg (by omega), hyBin]
    show (Bins.bin x columns >>= _) = _
    rw [Bins.bin, if_neg (by omega), hxBin]
    rfl

theorem selected_eq_ok_iff {u : Point Single} (hx : u.x.isNaN = false) (hy : u.y.isNaN = false)
    (i : Nat) : d.selected u = .ok (i / columns, i % columns) ↔ cellIndex d u = .ok i := by
  obtain ⟨v, c, hSelected, hc, _, hIndex⟩ := selected_eq_ok hBuild hColumns hRows hx hy
  rw [hSelected, hIndex, Except.ok.injEq, Except.ok.injEq, Prod.mk.injEq]
  constructor
  · rintro ⟨rfl, rfl⟩
    exact Nat.div_add_mod' i columns
  · rintro rfl
    rw [Nat.mul_comm, Nat.mul_add_div (by omega), Nat.mul_add_mod, Nat.div_eq_of_lt hc,
      Nat.mod_eq_of_lt hc]
    exact ⟨rfl, rfl⟩

/-- The draws that select a cell are those whose points fall into it. -/
theorem hits_selected (samples : Nat) (g : Generator) (i : Nat) :
    hits (fun j => d.selected (g.pointAt j)) samples (i / columns, i % columns) =
      hits (fun j => cellIndex d (g.pointAt j)) samples i := by
  apply hits_congr
  intro j
  obtain ⟨hx, hy⟩ := g.isNaN_pointAt j
  exact selected_eq_ok_iff hBuild hColumns hRows hx hy i

theorem sum_hits_selected (samples : Nat) (g : Generator) :
    ∑ i ∈ Finset.range (columns * rows), hits (fun j => d.selected (g.pointAt j)) samples
      (i / columns, i % columns) = samples := by
  simp only [hits_selected hBuild hColumns hRows]
  apply sum_hits
  intro j
  obtain ⟨hx, hy⟩ := g.isNaN_pointAt j
  obtain ⟨v, c, _, _, hLess, hIndex⟩ := selected_eq_ok hBuild hColumns hRows hx hy
  exact ⟨_, hLess, hIndex⟩

/-- What is expected of a cell is the weight that stands in its place. -/
theorem expectedOfCell_eq_ok {i : Nat} {w : Single} (hWeight : weights[i]? = some w) :
    expectedOfCell d i = .ok
      ((if d.integral.isZero then Binary.one else w / d.integral).convert .double *
        (Binary.one / Binary.ofNat .double (columns * rows))) := by
  obtain ⟨_, _, hSize, _, hEntries, _⟩ := GridDensity.build_eq_ok hBuild
  obtain ⟨hIndex, _⟩ := List.getElem?_eq_some_iff.mp hWeight
  have hColumn : i % columns < columns := Nat.mod_lt i (by omega)
  have hRow : i / columns < rows := Nat.div_lt_of_lt_mul (by omega)
  obtain ⟨row, hEntry, hRowBuild⟩ := hEntries _ hRow
  have hRowWeight : row.weights[i % columns]? = some w := by
    rw [GridDensity.row_weight hRowBuild hColumn, Nat.div_add_mod', hWeight]
  have hDensity := GridDensity.densityAt_eq_ok hBuild
    (p := ⟨centre (i % columns) columns, centre (i / columns) rows⟩)
    (by rw [Bins.bin, if_neg (by omega), binOf_centre hColumn hColumns])
    (by rw [Bins.bin, if_neg (by omega), binOf_centre hRow hRows])
    (fetch_eq_ok_iff.mpr hEntry) hRowWeight
  unfold expectedOfCell
  dsimp only
  rw [GridDensity.columns_eq hBuild, GridDensity.rowCount_eq hBuild, hDensity]
  rfl

end

/-! ## Reports -/

/-- A survey of an accepted list succeeds: it tallies the draws and writes the statistics. -/
theorem row_of_build {weights : List Single} {d : StepDensity} (hWord : weights.length < 2 ^ 64)
    (hBuild : StepDensity.build weights = .ok d) (samples : Nat) (g : Generator) :
    ∃ counts bins,
      tally (drawBin d) samples g (Array.replicate weights.length 0) =
        .ok (counts, g.after samples) ∧
      stats (expectedOfBin d) samples counts = .ok bins ∧
      row weights samples g = (.ok ⟨d.count, 1, d.integral, samples, bins⟩, g.after samples) := by
  obtain ⟨report, last, hSurvey⟩ := ofDensity_eq_ok hWord hBuild samples g
  have hRow : row weights samples g = (.ok report, last) := by
    simp only [row, hBuild, hSurvey, conclude]
  have hLast := generator_of_row_ok (congrArg Prod.fst hRow)
  obtain ⟨d', counts, bins, hBuild', hTally, hStats, rfl⟩ := row_eq_ok hRow
  cases hBuild.symm.trans hBuild'
  rw [StepDensity.count_eq hBuild] at hTally
  simp only [hRow] at hLast
  subst hLast
  exact ⟨counts, bins, hTally, hStats, hRow⟩

/-- A survey of an accepted table succeeds: it tallies the draws and writes the statistics. -/
theorem table_of_build {rows : List (List Single)} {threads : Nat} {d : GridDensity}
    (hWord : rows.flatten.length < 2 ^ 64) (hTable : buildTable rows threads = .ok d)
    (samples : Nat) (g : Generator) :
    ∃ counts bins,
      tally (drawCell d) samples g (Array.replicate (d.columns * d.rowCount) 0) =
        .ok (counts, g.after (2 * samples)) ∧
      stats (expectedOfCell d) samples counts = .ok bins ∧
      table rows samples threads g =
        (.ok ⟨d.columns, d.rowCount, d.integral, samples, bins⟩, g.after (2 * samples)) := by
  obtain ⟨_, hBuild⟩ := build_of_buildTable hTable
  obtain ⟨report, last, hSurvey⟩ := ofGrid_eq_ok hWord hBuild samples g
  have hOk : table rows samples threads g = (.ok report, last) := by
    simp only [table, hTable, hSurvey, conclude]
  have hLast := generator_of_table_ok (congrArg Prod.fst hOk)
  obtain ⟨d', counts, bins, _, hBuild', hTally, hStats, rfl⟩ := table_eq_ok hOk
  cases hBuild.symm.trans hBuild'
  simp only [hOk] at hLast
  subst hLast
  exact ⟨counts, bins, hTally, hStats, hOk⟩

/-- The entries of a report: what is expected of a bin, and the share of its hits. -/
theorem bins_of_survey {α : Type} {draw : Generator → Except Fault (Nat × Generator)} {n size : Nat}
    {variates : Generator → α} {bin : α → Except Fault Nat} (hReads : ReadsOff draw n variates bin)
    {samples : Nat} {g last : Generator} {counts : Array Nat}
    (hTally : tally draw samples g (Array.replicate size 0) = .ok (counts, last))
    {expected : Nat → Except Fault Double} {bins : List BinStats}
    (hStats : stats expected samples counts = .ok bins) :
    bins.length = size ∧ ∀ i < size, ∃ e, expected i = .ok e ∧
      bins[i]? = some ⟨e, share (hits (fun j => bin (variates (g.after (n * j)))) samples i) samples⟩ := by
  obtain ⟨hSize, hCounts⟩ := hits_of_tally hReads hTally
  obtain ⟨hLength, hBins⟩ := stats_eq_ok hStats
  exact ⟨hLength.trans hSize, fun i hIndex => hBins i _ (hCounts i hIndex)⟩

/-- The entry of a table that belongs to a bin of its report. -/
theorem exists_entry {rows : List (List Single)}
    (hEqual : ∀ row ∈ rows, row.length = GridDensity.width rows) {i : Nat}
    (hIndex : i < GridDensity.width rows * rows.length) :
    ∃ weights w, rows[i / GridDensity.width rows]? = some weights ∧
      weights[i % GridDensity.width rows]? = some w ∧ rows.flatten[i]? = some w := by
  have hWidth : 0 < GridDensity.width rows := Nat.pos_of_mul_pos_right (Nat.zero_lt_of_lt hIndex)
  have hRow : i / GridDensity.width rows < rows.length := Nat.div_lt_of_lt_mul hIndex
  have hEntry := List.getElem?_eq_getElem hRow
  have hColumn : i % GridDensity.width rows < rows[i / GridDensity.width rows].length := by
    rw [hEqual _ (List.getElem_mem hRow)]
    exact Nat.mod_lt i hWidth
  have hWeight := List.getElem?_eq_getElem hColumn
  refine ⟨_, _, hEntry, hWeight, ?_⟩
  rw [← getElem?_flatten_of_equal hEqual hEntry hWeight, Nat.div_add_mod']

/-- **The bins of a report line up, and no sample is lost.**  The report on an accepted list has a bin for
each weight, with its probability and the share of the draws that select it.  The report on an accepted
table with up to `2 ^ 22` columns and rows has a bin for each cell; the one with index `i` is the
cell in row `i / columns` and column `i % columns`, of which the density of that weight times the area of
a cell is expected, and of which the share of the draws is observed whose first variate selects that row
from the marginal and whose second selects that column from the row.  Every draw selects one bin. -/
theorem report_lines_up (samples : Nat) (g : Generator) :
    (∀ (weights : List Single) (d : StepDensity), weights.length < 2 ^ 64 →
      StepDensity.build weights = .ok d →
        ∃ report, row weights samples g = (.ok report, g.after samples) ∧
          report.bins.length = weights.length ∧
          (∀ i < weights.length, ∃ p, d.probability i = .ok p ∧ report.bins[i]? = some
            ⟨p.convert .double, .ofNat .double (hits (fun j => d.selected (g.unitAt j)) samples i) /
              .ofNat .double (max samples 1)⟩) ∧
          ∑ i ∈ Finset.range weights.length,
            hits (fun j => d.selected (g.unitAt j)) samples i = samples) ∧
    ∀ (rows : List (List Single)) (threads columns : Nat) (d : GridDensity),
      buildTable rows threads = .ok d → columns = GridDensity.width rows → columns ≤ 2 ^ 22 →
        rows.length ≤ 2 ^ 22 →
          ∃ report, table rows samples threads g = (.ok report, g.after (2 * samples)) ∧
            report.integral = d.integral ∧ report.bins.length = columns * rows.length ∧
            (∀ i < columns * rows.length, ∃ weights w, rows[i / columns]? = some weights ∧
              weights[i % columns]? = some w ∧ report.bins[i]? = some
                ⟨(if d.integral.isZero then .one else w / d.integral).convert .double *
                    (.one / .ofNat .double (columns * rows.length)),
                  .ofNat .double (hits (fun j => d.selected (g.pointAt j)) samples
                    (i / columns, i % columns)) / .ofNat .double (max samples 1)⟩) ∧
            ∑ i ∈ Finset.range (columns * rows.length), hits (fun j => d.selected (g.pointAt j)) samples
              (i / columns, i % columns) = samples := by
  constructor
  · intro weights d hWord hBuild
    obtain ⟨counts, bins, hTally, hStats, hRow⟩ := row_of_build hWord hBuild samples g
    obtain ⟨hLength, hBins⟩ := bins_of_survey (drawBin_readsOff d) hTally hStats
    have hSelected : ∀ j, d.bin (g.after (1 * j)).nextUnit.1 = d.selected (g.unitAt j) := by
      intro j
      rw [StepDensity.selected_eq hWord hBuild, Generator.unitAt, Nat.one_mul]
    simp only [hSelected] at hBins
    refine ⟨_, hRow, hLength, ?_, sum_hits ?_ samples⟩
    · intro i hIndex
      obtain ⟨e, hExpected, hEntry⟩ := hBins i hIndex
      obtain ⟨p, hProbability, _⟩ :=
        StepDensity.probability_of_lt hWord hBuild (by rwa [StepDensity.count_eq hBuild])
      rw [expectedOfBin, hProbability] at hExpected
      cases hExpected
      exact ⟨p, hProbability, hEntry⟩
    · intro j
      obtain ⟨k, hBin, hLess⟩ := StepDensity.exists_bin hWord hBuild (g.unitAt j)
      exact ⟨k, hLess, (StepDensity.selected_eq hWord hBuild _).trans hBin⟩
  · rintro rows threads columns d hTable rfl hColumns hRows
    obtain ⟨hEqual, hBuild⟩ := build_of_buildTable hTable
    obtain ⟨_, _, hSize, _, _, _⟩ := GridDensity.build_eq_ok hBuild
    have hWord : rows.flatten.length < 2 ^ 64 := by
      have hProduct := Nat.mul_le_mul hColumns hRows
      omega
    obtain ⟨counts, bins, hTally, hStats, hSurvey⟩ := table_of_build hWord hTable samples g
    rw [GridDensity.columns_eq hBuild, GridDensity.rowCount_eq hBuild] at hTally
    obtain ⟨hLength, hBins⟩ := bins_of_survey (drawCell_readsOff d) hTally hStats
    refine ⟨_, hSurvey, rfl, hLength, ?_, sum_hits_selected hBuild hColumns hRows samples g⟩
    intro i hIndex
    obtain ⟨weights, w, hEntry, hWeight, hFlat⟩ := exists_entry hEqual hIndex
    obtain ⟨e, hExpected, hBin⟩ := hBins i hIndex
    rw [expectedOfCell_eq_ok hBuild hColumns hRows hFlat] at hExpected
    cases hExpected
    refine ⟨weights, w, hEntry, hWeight, ?_⟩
    rw [hits_selected hBuild hColumns hRows]
    exact hBin

/-- Three samples of a list, and three of a table with zeros, built by two workers. -/
theorem report_lines_up_three :
    (∃ d report, StepDensity.build [.one, .zero] = .ok d ∧
      row [.one, .zero] 3 (.ofSeed 7) = (.ok report, (Generator.ofSeed 7).after 3) ∧
      report.bins.length = 2 ∧
      ∑ i ∈ Finset.range 2, hits (fun j => d.selected ((Generator.ofSeed 7).unitAt j)) 3 i = 3) ∧
    ∃ d report, buildTable [[.zero, .one, .one], [.one, .zero, .one]] 2 = .ok d ∧
      table [[.zero, .one, .one], [.one, .zero, .one]] 3 2 (.ofSeed 7) =
        (.ok report, (Generator.ofSeed 7).after 6) ∧
      report.bins.length = 6 ∧
      ∑ i ∈ Finset.range 6, hits (fun j => d.selected ((Generator.ofSeed 7).pointAt j)) 3
        (i / 3, i % 3) = 3 := by
  obtain ⟨hRow, hTable⟩ := report_lines_up 3 (.ofSeed 7)
  constructor
  · obtain ⟨d, hBuild⟩ : ∃ d, StepDensity.build [.one, .zero] = .ok d := ⟨_, rfl⟩
    obtain ⟨report, hReport, hLength, _, hSum⟩ := hRow [.one, .zero] d (by decide) hBuild
    exact ⟨d, report, hBuild, hReport, hLength, hSum⟩
  · obtain ⟨d, hBuild⟩ :
        ∃ d, buildTable [[.zero, .one, .one], [.one, .zero, .one]] 2 = .ok d :=
      ⟨_, (buildTable_of_equal (by decide) 2).trans rfl⟩
    obtain ⟨report, hReport, _, hLength, _, hSum⟩ := hTable _ 2 3 d hBuild rfl (by decide) (by decide)
    exact ⟨d, report, hBuild, hReport, hLength, hSum⟩

end Survey

end StepSampling
