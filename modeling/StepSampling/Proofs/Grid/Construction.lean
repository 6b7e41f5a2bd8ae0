import StepSampling.Proofs.Grid.Agreement
import StepSampling.Proofs.Grid.Crew

/-!
# The ways to build a grid

A grid that is built holds one density for each row, made from that row's stretch of the weights, and
the stretches make up the weights again.  The marginal holds the integrals of the rows.

A list of rows is refused for its first row that is not as long as row 0, and is otherwise built as
its concatenation.  So whichever way a grid was built, it is what the serial construction makes of
some list of weights, and what is proved of that holds of all of them.
-/

namespace StepSampling

/-- The refusal of a row names it. -/
theorem Refusal.message_raggedRow (row length expected : Nat) :
    (raggedRow row length expected).message = "invalid argument: row " ++ Decimal.natText row ++
      " has " ++ Decimal.natText length ++ " values, expected " ++ Decimal.natText expected := by
  have hStart (rest : String) :
      "invalid argument: " ++ ("row " ++ rest) = "invalid argument: row " ++ rest := by
    rw [← String.append_assoc]
    simp
  show "invalid argument: " ++ ("row " ++ Decimal.natText row ++ " has " ++
    Decimal.natText length ++ " values, expected " ++ Decimal.natText expected) = _
  simp only [String.append_assoc]
  exact hStart _

namespace GridDensity

section

variable {weights : List Single} {columns rows : Nat} {d : GridDensity}
  (hBuild : build weights columns rows = .ok d)

include hBuild

/-- The rows keep the stretches of the weights, in their order. -/
theorem map_weights_rows :
    (d.rows.toList.map fun row => row.weights.toList) = stretches columns rows weights := by
  obtain ⟨_, _, _, hCount, hRow, _⟩ := build_eq_ok hBuild
  apply List.ext_getElem?
  intro v
  by_cases hv : v < rows
  · obtain ⟨row, hEntry, hRowBuild⟩ := hRow v hv
    obtain ⟨_, _, hKept, _, _, _⟩ := StepDensity.build_eq_ok hRowBuild
    rw [List.getElem?_map, Array.getElem?_toList, hEntry, Option.map_some, hKept,
      getElem?_stretches columns rows weights hv]
  · rw [List.getElem?_eq_none (by rw [List.length_map, Array.length_toList]; omega),
      List.getElem?_eq_none (by rw [length_stretches]; omega)]

/-- A row of a built grid is built from its own stretch. -/
theorem conditional_eq_ok {v : Nat} (hRow : v < rows) :
    ∃ row, d.conditional v = .ok row ∧ row.count = columns ∧
      StepDensity.build ((weights.drop (v * columns)).take columns) = .ok row ∧
      d.marginal.weights[v]? = some row.integral := by
  obtain ⟨_, _, hSize, _, hRows, _⟩ := build_eq_ok hBuild
  obtain ⟨row, hEntry, hRowBuild⟩ := hRows v hRow
  refine ⟨row, fetch_eq_ok_iff.mpr hEntry, ?_, hRowBuild, marginal_weight hBuild hEntry⟩
  rw [StepDensity.count_eq hRowBuild, length_stretch hSize hRow]

end

/-! ## Lists of rows -/

section

variable {table : List (List Single)}

/-- Rows of different lengths are refused, and the first that differs from row 0 is named. -/
theorem ofTable_of_ragged (hRagged : ∃ row ∈ table, row.length ≠ width table) :
    ∃ v row, table[v]? = some row ∧ row.length ≠ width table ∧
      (∀ i r, i < v → table[i]? = some r → r.length = width table) ∧
      ofTable table = .error (.raggedRow v row.length (width table)) := by
  rw [ofTable]
  cases hFound : table.findIdx? (·.length != width table) with
  | none =>
      obtain ⟨row, hMem, hLength⟩ := hRagged
      rw [List.findIdx?_eq_none_iff] at hFound
      exact absurd (hFound row hMem) (by simpa using hLength)
  | some v =>
      rw [List.findIdx?_eq_some_iff_getElem] at hFound
      obtain ⟨hIndex, hDiffers, hBefore⟩ := hFound
      have hEntry : table[v]? = some table[v] := List.getElem?_eq_getElem hIndex
      refine ⟨v, table[v], hEntry, by simpa using hDiffers, ?_, ?_⟩
      · intro i r hLt hr
        obtain ⟨hi, rfl⟩ := List.getElem?_eq_some_iff.mp hr
        simpa using hBefore i hLt
      · simp only [List.getD_eq_getElem?_getD, hEntry, Option.getD_some]

/-- Rows of one length are built as their concatenation. -/
theorem ofTable_of_equal (hEqual : ∀ row ∈ table, row.length = width table) :
    ofTable table = build table.flatten (width table) table.length := by
  have hNone : table.findIdx? (·.length != width table) = none := by
    rw [List.findIdx?_eq_none_iff]
    intro row hMem
    simpa using hEqual row hMem
  rw [ofTable]
  simp only [hNone]

/-- What is built from a list of rows is built from their concatenation. -/
theorem build_of_ofTable {d : GridDensity} (hTable : ofTable table = .ok d) :
    (∀ row ∈ table, row.length = width table) ∧
      build table.flatten (width table) table.length = .ok d := by
  by_cases hEqual : ∀ row ∈ table, row.length = width table
  · exact ⟨hEqual, (ofTable_of_equal hEqual).symm.trans hTable⟩
  · push Not at hEqual
    obtain ⟨_, _, _, _, _, hRefused⟩ := ofTable_of_ragged hEqual
    rw [hRefused] at hTable
    cases hTable

end

/-- **What a built grid holds, and how lists of rows are built.**  A grid is built only from a whole
number of rows and columns that fit its weights, compared as natural numbers; each row is the density
of its stretch of the weights, the rows' weights make up the grid's, and the marginal has the rows'
integrals as its weights.  A list of rows is refused with the name of the first row whose length
differs from that of row 0, and otherwise it is built as its concatenation. -/
theorem structure_of_build :
    (∀ (weights : List Single) (columns rows : Nat) (d : GridDensity),
      build weights columns rows = .ok d →
        1 ≤ columns ∧ 1 ≤ rows ∧ columns * rows = weights.length ∧ d.rows.size = rows ∧
        (∀ v < rows, ∃ row, d.conditional v = .ok row ∧ row.count = columns ∧
          StepDensity.build ((weights.drop (v * columns)).take columns) = .ok row ∧
          d.marginal.weights[v]? = some row.integral) ∧
        (d.rows.toList.map fun row => row.weights.toList).flatten = weights ∧
        d.marginal.count = rows) ∧
    ∀ table : List (List Single),
      ((∃ row ∈ table, row.length ≠ width table) →
        ∃ v row, table[v]? = some row ∧ row.length ≠ width table ∧
          (∀ i r, i < v → table[i]? = some r → r.length = width table) ∧
          ∃ refusal, ofTable table = .error refusal ∧
            refusal.message = "invalid argument: row " ++ Decimal.natText v ++ " has " ++
              Decimal.natText row.length ++ " values, expected " ++
              Decimal.natText (width table)) ∧
      ((∀ row ∈ table, row.length = width table) →
        ofTable table = build table.flatten (width table) table.length) := by
  refine ⟨?_, ?_⟩
  · intro weights columns rows d hBuild
    obtain ⟨hColumns, hRows, hSize, hCount, _, _⟩ := build_eq_ok hBuild
    refine ⟨hColumns, hRows, hSize, hCount, fun v hv => conditional_eq_ok hBuild hv, ?_,
      rowCount_eq hBuild⟩
    rw [map_weights_rows hBuild, flatten_stretches hSize]
  · intro table
    refine ⟨?_, ofTable_of_equal⟩
    intro hRagged
    obtain ⟨v, row, hEntry, hDiffers, hFirst, hRefused⟩ := ofTable_of_ragged hRagged
    exact ⟨v, row, hEntry, hDiffers, hFirst, _, hRefused, Refusal.message_raggedRow _ _ _⟩

/-- Two rows of three weights, built from the grid and from the rows. -/
theorem structure_of_build_rectangle :
    ∃ d row, build [.zero, .one, .one, .zero, .zero, .ofNat .single 7] 3 2 = .ok d ∧
      d.conditional 1 = .ok row ∧ row.count = 3 ∧
      StepDensity.build [.zero, .zero, .ofNat .single 7] = .ok row ∧
      d.marginal.weights[1]? = some row.integral ∧
      ofTable [[.zero, .one, .one], [.zero, .zero, .ofNat .single 7]] = .ok d := by
  obtain ⟨hStructure, hTables⟩ := structure_of_build
  obtain ⟨d, hBuild⟩ : ∃ d, build [.zero, .one, .one, .zero, .zero, .ofNat .single 7] 3 2 = .ok d :=
    ⟨_, rfl⟩
  obtain ⟨_, _, _, _, hRows, _, _⟩ := hStructure _ _ _ d hBuild
  obtain ⟨row, hRow, hCount, hRowBuild, hWeight⟩ := hRows 1 (by decide)
  refine ⟨d, row, hBuild, hRow, hCount, hRowBuild, hWeight, ?_⟩
  rw [(hTables [[.zero, .one, .one], [.zero, .zero, .ofNat .single 7]]).2 (by decide)]
  exact hBuild

end GridDensity

end StepSampling
