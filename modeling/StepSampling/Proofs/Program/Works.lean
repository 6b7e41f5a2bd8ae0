import StepSampling.Proofs.Program
import StepSampling.Proofs.Survey.Log

/-!
# The work on a file as a relation

What has been written goes through the work on a file, and the survey of its table ends and logs as one
of the executions of its pool does.  The work on a file only adds to what has been written.  What it
adds is settled by the path, by the content of the file, by the options and by the execution of the
pool, and the execution has a part in the details of the log alone.
-/

namespace StepSampling.Program

/-! ## Surveys -/

/-- What the survey of a table can give and log, over all executions of a pool. -/
inductive Surveys (o : Options) (processors : Nat) :
    List (List Single) → Except SurveyError Report → List Record → Prop
  /-- A single row is surveyed as a step density. -/
  | row (weights : List Single) :
      Surveys o processors [weights] (Survey.row weights o.samples (.ofSeed o.seed)).1
        (Survey.rowRecords weights)
  /-- Several rows are surveyed as a grid density, with as many workers as there can be. -/
  | table {rows : List (List Single)} {ended : Except SurveyError Report × Generator}
      {records : List Record} (hRows : rows.length ≠ 1)
      (hEnds : Survey.Ends rows o.samples (o.crew processors).1 (.ofSeed o.seed) ended records) :
      Surveys o processors rows ended.1 ((o.crew processors).2 ++ records)

variable {o : Options} {processors : Nat} {files others : Files} {path : String}
  {rows : List (List Single)} {result : Except SurveyError Report} {records : List Record}
  {before after x : Block} {code : Nat} {outcome : Outcome}

theorem survey_of_length_ne_one (hRows : rows.length ≠ 1) :
    survey o processors rows =
      ((Survey.table rows o.samples (o.crew processors).1 (.ofSeed o.seed)).1,
        (o.crew processors).2 ++ Survey.tableRecords rows (o.crew processors).1) := by
  unfold survey
  split
  · exact absurd rfl hRows
  · rfl

/-- The survey that is run. -/
theorem surveys_survey (o : Options) (processors : Nat) (rows : List (List Single)) :
    Surveys o processors rows (survey o processors rows).1 (survey o processors rows).2 := by
  by_cases hRows : rows.length = 1
  · obtain ⟨weights, rfl⟩ := List.length_eq_one_iff.mp hRows
    exact .row weights
  · rw [survey_of_length_ne_one hRows]
    exact .table hRows (Survey.ends_table ..)

/-- The execution of the pool has no part in the result. -/
theorem Surveys.result_eq (hSurvey : Surveys o processors rows result records) :
    result = (survey o processors rows).1 := by
  cases hSurvey with
  | row weights => rfl
  | table hRows hEnds => rw [survey_of_length_ne_one hRows, hEnds.eq_table]

/-- What is logged is alike in all executions. -/
theorem Surveys.records_alike (hSurvey : Surveys o processors rows result records) :
    Record.Alike ((o.crew processors).1 ≤ 1) (∃ report, result = .ok report) records
      (survey o processors rows).2 := by
  cases hSurvey with
  | row weights => exact .refl _
  | table hRows hEnds =>
      rw [survey_of_length_ne_one hRows]
      exact (Record.Alike.refl _).append (hEnds.records_alike (Survey.ends_table ..))

/-- Surveys do not know whether their reports are asked for. -/
theorem Surveys.withQuiet (hSurvey : Surveys o processors rows result records) (quiet : Bool) :
    Surveys { o with quiet := quiet } processors rows result records := by
  cases hSurvey with
  | row weights => exact .row weights
  | table hRows hEnds => exact .table hRows hEnds

/-! ## The work on a file -/

/-- What has been written when a table has been surveyed. -/
def surveyed (before : Block) (path : String) (rows : List (List Single)) (records : List Record) :
    Block :=
  (before.log [readRecord path rows]).log records

/-- The work on a file: what has been written before it, and what there is after it.  Work that a fault
breaks off has an exit code of its own. -/
inductive Works (o : Options) (processors : Nat) (files : Files) (path : String) (before : Block) :
    Outcome → Prop
  /-- No table can be read. -/
  | unread {message : String} (hTable : readTable files path = .error message) :
      Works o processors files path before ⟨0, before.log [⟨.error, message⟩]⟩
  /-- The survey gives up without a fault. -/
  | refused {rows : List (List Single)} {e : SurveyError} {records : List Record}
      (hTable : readTable files path = .ok rows)
      (hSurvey : Surveys o processors rows (.error e) records) (hRefused : ∀ f, e ≠ .fault f) :
      Works o processors files path before
        ⟨0, (surveyed before path rows records).log [⟨.error, e.message⟩]⟩
  /-- A query of the survey fails. -/
  | failed {rows : List (List Single)} {f : Fault} {records : List Record}
      (hTable : readTable files path = .ok rows)
      (hSurvey : Surveys o processors rows (.error (.fault f)) records) :
      Works o processors files path before ⟨faultCode, surveyed before path rows records⟩
  /-- There is a report, which is not asked for. -/
  | silent {rows : List (List Single)} {report : Report} {records : List Record}
      (hTable : readTable files path = .ok rows)
      (hSurvey : Surveys o processors rows (.ok report) records) (hQuiet : o.quiet = true) :
      Works o processors files path before
        ⟨0, (surveyed before path rows records).log [reportRecord path report]⟩
  /-- There is a report, and it is written. -/
  | reported {rows : List (List Single)} {report : Report} {records : List Record} {text : String}
      (hTable : readTable files path = .ok rows)
      (hSurvey : Surveys o processors rows (.ok report) records) (hLoud : o.quiet = false)
      (hText : report.text = .ok text) :
      Works o processors files path before
        ⟨0, ((surveyed before path rows records).log [reportRecord path report]).print
          (reportOutput path text)⟩
  /-- There is a report that cannot be written. -/
  | unwritten {rows : List (List Single)} {report : Report} {records : List Record} {f : Fault}
      (hTable : readTable files path = .ok rows)
      (hSurvey : Surveys o processors rows (.ok report) records) (hLoud : o.quiet = false)
      (hText : report.text = .error f) :
      Works o processors files path before
        ⟨faultCode, (surveyed before path rows records).log [reportRecord path report]⟩

/-! ## What the work on a file adds -/

theorem surveyed_eq_append (b : Block) (path : String) (rows : List (List Single))
    (records : List Record) :
    surveyed b path rows records = b.append (surveyed .empty path rows records) := by
  rw [surveyed, Block.log_eq_append b, Block.log_append]
  rfl

theorem surveyed_log (b : Block) (path : String) (rows : List (List Single)) (records : List Record)
    (r : Record) :
    (surveyed b path rows records).log [r] =
      b.append ((surveyed .empty path rows records).log [r]) := by
  rw [surveyed_eq_append, Block.log_append]

/-- Work that goes the same way whatever has been written before it adds what it adds to nothing. -/
theorem exists_block_of_forall {after : Block → Block}
    (hWorks : ∀ b, Works o processors files path b ⟨code, after b⟩)
    (hAdds : ∀ b, after b = b.append (after .empty)) :
    ∃ x, after before = before.append x ∧ ∀ b, Works o processors files path b ⟨code, b.append x⟩ := by
  refine ⟨after .empty, hAdds before, fun b => ?_⟩
  rw [← hAdds]
  exact hWorks b

/-- The work on a file adds a block, the same to whatever has been written before it. -/
theorem Works.exists_block (hWorks : Works o processors files path before ⟨code, after⟩) :
    ∃ x, after = before.append x ∧ ∀ b, Works o processors files path b ⟨code, b.append x⟩ := by
  cases hWorks with
  | unread hTable =>
      exact exists_block_of_forall (fun _ => .unread hTable) fun _ => Block.log_eq_append ..
  | refused hTable hSurvey hRefused =>
      exact exists_block_of_forall (fun _ => .refused hTable hSurvey hRefused) fun _ =>
        surveyed_log ..
  | failed hTable hSurvey =>
      exact exists_block_of_forall (fun _ => .failed hTable hSurvey) fun _ => surveyed_eq_append ..
  | silent hTable hSurvey hQuiet =>
      exact exists_block_of_forall (fun _ => .silent hTable hSurvey hQuiet) fun _ => surveyed_log ..
  | reported hTable hSurvey hLoud hText =>
      refine exists_block_of_forall (fun _ => .reported hTable hSurvey hLoud hText) fun b => ?_
      rw [surveyed_log, Block.print_append]
  | unwritten hTable hSurvey hLoud hText =>
      exact exists_block_of_forall (fun _ => .unwritten hTable hSurvey hLoud hText) fun _ =>
        surveyed_log ..

/-- What the work on a file adds to nothing it adds to anything. -/
theorem Works.of_empty (hWorks : Works o processors files path .empty ⟨code, x⟩) (b : Block) :
    Works o processors files path b ⟨code, b.append x⟩ := by
  obtain ⟨y, rfl, hAll⟩ := hWorks.exists_block
  rw [Block.empty_append]
  exact hAll b

/-- The work on a file reads no other file. -/
theorem Works.of_content (hWorks : Works o processors files path before outcome)
    (hContent : files path = others path) : Works o processors others path before outcome := by
  have hRead : readTable files path = readTable others path := by
    rw [readTable, readTable, hContent]
  cases hWorks with
  | unread hTable => exact .unread (hRead ▸ hTable)
  | refused hTable hSurvey hRefused => exact .refused (hRead ▸ hTable) hSurvey hRefused
  | failed hTable hSurvey => exact .failed (hRead ▸ hTable) hSurvey
  | silent hTable hSurvey hQuiet => exact .silent (hRead ▸ hTable) hSurvey hQuiet
  | reported hTable hSurvey hLoud hText => exact .reported (hRead ▸ hTable) hSurvey hLoud hText
  | unwritten hTable hSurvey hLoud hText => exact .unwritten (hRead ▸ hTable) hSurvey hLoud hText

/-- Where there is no fault, the work comes to its end. -/
theorem Faultless.code_eq_zero (hFaultless : Faultless o processors files path)
    (hWorks : Works o processors files path before outcome) : outcome.code = 0 := by
  cases hWorks with
  | unread hTable => rfl
  | refused hTable hSurvey hRefused => rfl
  | failed hTable hSurvey => exact absurd hSurvey.result_eq.symm ((hFaultless _ hTable).1 _)
  | silent hTable hSurvey hQuiet => rfl
  | reported hTable hSurvey hLoud hText => rfl
  | unwritten hTable hSurvey hLoud hText =>
      obtain ⟨text, hWritten⟩ := (hFaultless _ hTable).2 _ hSurvey.result_eq.symm
      cases hWritten.symm.trans hText

/-! ## The execution that is run -/

/-- What the work on a file leaves if its table can be read, from what any execution gives. -/
theorem Surveys.fileOutcome_eq (hSurvey : Surveys o processors rows result records)
    (hTable : readTable files path = .ok rows) :
    fileOutcome o processors files path =
      tableOutcome o.quiet path rows (result, (survey o processors rows).2) := by
  rw [fileOutcome, hTable, hSurvey.result_eq]

/-- The work that is done on a file. -/
theorem works_fileOutcome (o : Options) (processors : Nat) (files : Files) (path : String) :
    Works o processors files path .empty (fileOutcome o processors files path) := by
  cases hTable : readTable files path with
  | error message =>
      rw [fileOutcome, hTable]
      exact .unread hTable
  | ok rows =>
      have hSurvey := surveys_survey o processors rows
      rw [hSurvey.fileOutcome_eq hTable]
      cases hResult : (survey o processors rows).1 with
      | error e =>
          rw [hResult] at hSurvey
          cases e with
          | refused r => exact .refused hTable hSurvey nofun
          | ragged => exact .refused hTable hSurvey nofun
          | fault f => exact .failed hTable hSurvey
      | ok report =>
          rw [hResult] at hSurvey
          rw [tableOutcome, reportOutcome]
          cases hQuiet : o.quiet with
          | true => exact .silent hTable hSurvey hQuiet
          | false =>
              cases hText : report.text with
              | error f => exact .unwritten hTable hSurvey hQuiet hText
              | ok text => exact .reported hTable hSurvey hQuiet hText

theorem Works.code_eq (hWorks : Works o processors files path before outcome) :
    outcome.code = 0 ∨ outcome.code = faultCode := by
  cases hWorks with
  | unread => exact .inl rfl
  | refused => exact .inl rfl
  | failed => exact .inr rfl
  | silent => exact .inl rfl
  | reported => exact .inl rfl
  | unwritten => exact .inr rfl

/-! ## How far two executions agree -/

/-- If a table can be read at the path, its survey gives a report. -/
def Reported (o : Options) (processors : Nat) (files : Files) (path : String) : Prop :=
  ∀ rows, readTable files path = .ok rows → ∃ report, (survey o processors rows).1 = .ok report

/-- What is logged around a survey does not depend on the execution. -/
theorem Surveys.around (hSurvey : Surveys o processors rows result records)
    (hTable : readTable files path = .ok rows) (r : Record) :
    Record.Alike ((o.crew processors).1 ≤ 1) (Reported o processors files path)
      (readRecord path rows :: records ++ [r])
      (readRecord path rows :: (survey o processors rows).2 ++ [r]) := by
  have hRecords := hSurvey.records_alike.weaken fun hReported : Reported o processors files path =>
    hSurvey.result_eq ▸ hReported rows hTable
  exact ((Record.Alike.refl [readRecord path rows]).append hRecords).append (.refl [r])

/-- All work on a file that ends without a fault leaves the same output, and it is logged alike. -/
theorem Works.alike (hWorks : Works o processors files path .empty ⟨0, x⟩) :
    (fileOutcome o processors files path).code = 0 ∧
      x.output = (fileOutcome o processors files path).block.output ∧
      Record.Alike ((o.crew processors).1 ≤ 1) (Reported o processors files path) x.records
        (fileOutcome o processors files path).block.records := by
  cases hWorks with
  | unread hTable =>
      rw [fileOutcome, hTable]
      exact ⟨rfl, rfl, .refl _⟩
  | @refused rows e records hTable hSurvey hRefused =>
      rw [hSurvey.fileOutcome_eq hTable]
      cases e with
      | refused r => exact ⟨rfl, rfl, hSurvey.around hTable _⟩
      | ragged => exact ⟨rfl, rfl, hSurvey.around hTable _⟩
      | fault f => exact absurd rfl (hRefused f)
  | silent hTable hSurvey hQuiet =>
      rw [hSurvey.fileOutcome_eq hTable, tableOutcome, reportOutcome, if_pos hQuiet]
      exact ⟨rfl, rfl, hSurvey.around hTable _⟩
  | reported hTable hSurvey hLoud hText =>
      rw [hSurvey.fileOutcome_eq hTable, tableOutcome, reportOutcome, hLoud, hText]
      exact ⟨rfl, rfl, hSurvey.around hTable _⟩

/-! ## The quiet flag -/

/-- With the quiet flag the work on a file writes the same records and no output. -/
theorem Works.muted
    (hWorks : Works { o with quiet := false } processors files path before outcome) :
    Works { o with quiet := true } processors files path before.muted outcome.muted := by
  cases hWorks with
  | unread hTable => exact .unread hTable
  | refused hTable hSurvey hRefused => exact .refused hTable (hSurvey.withQuiet true) hRefused
  | failed hTable hSurvey => exact .failed hTable (hSurvey.withQuiet true)
  | silent _ _ hQuiet => cases hQuiet
  | reported hTable hSurvey _ _ => exact .silent hTable (hSurvey.withQuiet true) rfl
  | unwritten _ hSurvey _ hText =>
      obtain ⟨text, hWritten⟩ := exists_text_of_survey hSurvey.result_eq.symm
      cases hWritten.symm.trans hText

/-- Without the quiet flag the work on a file also writes the report. -/
theorem Works.exists_loud
    (hWorks : Works { o with quiet := true } processors files path before.muted ⟨code, x⟩) :
    ∃ after, Works { o with quiet := false } processors files path before ⟨code, after⟩ ∧
      x = after.muted := by
  cases hWorks with
  | unread hTable => exact ⟨_, .unread hTable, rfl⟩
  | refused hTable hSurvey hRefused =>
      exact ⟨_, .refused hTable (hSurvey.withQuiet false) hRefused, rfl⟩
  | failed hTable hSurvey => exact ⟨_, .failed hTable (hSurvey.withQuiet false), rfl⟩
  | silent hTable hSurvey _ =>
      obtain ⟨text, hText⟩ := exists_text_of_survey hSurvey.result_eq.symm
      exact ⟨_, .reported hTable (hSurvey.withQuiet false) rfl hText, rfl⟩
  | reported _ _ hLoud _ => cases hLoud
  | unwritten _ _ hLoud _ => cases hLoud

end StepSampling.Program
