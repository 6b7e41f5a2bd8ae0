import StepSampling.Proofs.Grid.Log
import StepSampling.Proofs.Survey.Determinism

/-!
# What is logged during a survey

A survey logs what the building of its density logs.  Without a pool that is settled by the rows.  With
one it depends on the execution, but only so far: from the severity of an information upwards all logs
are the same, and where the survey succeeds, all logs hold the same records.  `Record.Alike` is this
measure of agreement between two logs.
-/

namespace StepSampling

/-! ## Logs of different executions -/

/-- How far the logs of two executions of the same work agree: they differ in details at most, not at
all if the work is done without a pool, and in the order of the records at most if it is complete. -/
structure Record.Alike (alone complete : Prop) (a b : List Record) : Prop where
  /-- Nothing from the severity of an information upwards depends on the execution. -/
  visible_eq : visible (some .info) a = visible (some .info) b
  /-- Work that is done alone has one execution. -/
  eq_of_alone : alone → a = b
  /-- Every execution of complete work logs all of it. -/
  perm_of_complete : complete → a.Perm b

namespace Record.Alike

variable {alone complete whole : Prop} {a b c d : List Record}

theorem refl (a : List Record) : Alike alone complete a a := ⟨rfl, fun _ => rfl, fun _ => .refl a⟩

theorem append (hFirst : Alike alone complete a b) (hSecond : Alike alone complete c d) :
    Alike alone complete (a ++ c) (b ++ d) where
  visible_eq := by rw [visible_append, visible_append, hFirst.visible_eq, hSecond.visible_eq]
  eq_of_alone h := by rw [hFirst.eq_of_alone h, hSecond.eq_of_alone h]
  perm_of_complete h := (hFirst.perm_of_complete h).append (hSecond.perm_of_complete h)

/-- More is known of work that is known to be complete more often. -/
theorem weaken (hAlike : Alike alone complete a b) (hComplete : whole → complete) :
    Alike alone whole a b :=
  ⟨hAlike.visible_eq, hAlike.eq_of_alone, fun h => hAlike.perm_of_complete (hComplete h)⟩

end Record.Alike

namespace Survey

/-! ## Surveys of tables with their logs -/

/-- What the survey of a table can end with and log, over all executions of the pool. -/
inductive Ends (rows : List (List Single)) (samples threads : Nat) (g : Generator) :
    Except SurveyError Report × Generator → List Record → Prop
  /-- No more than one worker is asked for. -/
  | alone (hAlone : threads ≤ 1) :
      Ends rows samples threads g (resume samples g ((GridDensity.ofTable rows).mapError .refused))
        (GridDensity.tableRecords rows)
  /-- A pool is asked for, but the rows have different lengths. -/
  | ragged (hPool : 1 < threads) (hRagged : ∃ row ∈ rows, row.length ≠ GridDensity.width rows) :
      Ends rows samples threads g (.error .ragged, g) []
  /-- A pool has built the concatenation of the rows. -/
  | pooled (hPool : 1 < threads) (hEqual : ∀ row ∈ rows, row.length = GridDensity.width rows)
      {built : Except Refusal GridDensity} {records : List Record}
      (hReturns : GridDensity.ReturnsLogging threads rows.flatten (GridDensity.width rows)
        rows.length built records) :
      Ends rows samples threads g (resume samples g (built.mapError .refused)) records

variable {rows : List (List Single)} {samples threads : Nat} {g : Generator}
  {ended : Except SurveyError Report × Generator} {records : List Record}

/-- The log has no part in the result. -/
theorem Ends.eq_table (hEnds : Ends rows samples threads g ended records) :
    ended = table rows samples threads g := by
  rw [table_eq_resume]
  cases hEnds with
  | alone hAlone => rw [← eq_buildTable_of_builds (.alone hAlone)]
  | ragged hPool hRagged =>
      rw [← eq_buildTable_of_builds (.ragged hPool hRagged)]
      rfl
  | pooled hPool hEqual hReturns =>
      rw [← eq_buildTable_of_builds (.pooled hPool hEqual hReturns.returns)]

/-- The survey that is run, with its log. -/
theorem ends_table (rows : List (List Single)) (samples threads : Nat) (g : Generator) :
    Ends rows samples threads g (table rows samples threads g) (tableRecords rows threads) := by
  rw [table_eq_resume, tableRecords]
  by_cases hPool : 1 < threads
  · cases hAny : rows.any (·.length != GridDensity.width rows) with
    | true =>
        have hRagged : ∃ row ∈ rows, row.length ≠ GridDensity.width rows := by simpa using hAny
        rw [← eq_buildTable_of_builds (.ragged hPool hRagged)]
        simp only [if_pos hPool]
        exact .ragged hPool hRagged
    | false =>
        have hEqual : ∀ row ∈ rows, row.length = GridDensity.width rows := by simpa using hAny
        have hReturns := GridDensity.returnsLogging_buildWith threads rows.flatten
          (GridDensity.width rows) rows.length
        rw [← eq_buildTable_of_builds (.pooled hPool hEqual hReturns.returns)]
        simp only [if_pos hPool]
        exact .pooled hPool hEqual hReturns
  · rw [← eq_buildTable_of_builds (.alone (Nat.le_of_not_lt hPool))]
    simp only [if_neg hPool]
    exact .alone (Nat.le_of_not_lt hPool)

/-- Only a density that has been built leads to a report. -/
theorem exists_of_resume {built : Except Refusal GridDensity} {report : Report}
    (hReport : (resume samples g (built.mapError .refused)).1 = .ok report) : ∃ d, built = .ok d := by
  cases built with
  | error r => cases hReport
  | ok d => exact ⟨d, rfl⟩

/-- Two executions of a survey leave logs that are alike, and a survey with a report is complete. -/
theorem Ends.records_alike {other : Except SurveyError Report × Generator} {others : List Record}
    (hEnds : Ends rows samples threads g ended records)
    (hOther : Ends rows samples threads g other others) :
    Record.Alike (threads ≤ 1) (∃ report, ended.1 = .ok report) records others := by
  cases hEnds with
  | alone hAlone =>
      cases hOther with
      | alone => exact .refl _
      | ragged hPool => omega
      | pooled hPool => omega
  | ragged hPool hRagged =>
      obtain ⟨row, hMem, hDiffer⟩ := hRagged
      cases hOther with
      | alone => omega
      | ragged => exact .refl _
      | pooled _ hEqual => exact absurd (hEqual row hMem) hDiffer
  | pooled hPool hEqual hReturns =>
      cases hOther with
      | alone => omega
      | ragged _ hRagged =>
          obtain ⟨row, hMem, hDiffer⟩ := hRagged
          exact absurd (hEqual row hMem) hDiffer
      | pooled _ _ hAgain =>
          -- both pools return what building alone returns
          cases GridDensity.eq_build_of_returns hReturns.returns
          cases GridDensity.eq_build_of_returns hAgain.returns
          refine ⟨hReturns.visible.trans hAgain.visible.symm, fun hAlone => by omega, ?_⟩
          rintro ⟨report, hReport⟩
          obtain ⟨d, hBuilt⟩ := exists_of_resume hReport
          rw [hBuilt] at hReturns hAgain
          exact hReturns.perm_rows.trans hAgain.perm_rows.symm

end Survey

end StepSampling
