import StepSampling.Proofs.Generator.Period
import StepSampling.Proofs.Survey.Completion

/-!
# What a survey depends on, and what it does to the generator

The number of workers does not enter the result of a survey.  Rows of one length are built from their
concatenation whether there is a pool or not, and a pool returns what the serial construction returns,
whoever moves when; rows of different lengths are an error either way.

The generator is a ledger of the draws.  A draw reads its variates off the generator and moves it on by
a fixed number of words, so a survey that succeeds has moved it by that number times its samples.  All
errors are found before the first draw and leave it as it was.
-/

namespace StepSampling

namespace Survey

/-! ## Draws along the generator -/

/-- The draw reads what it needs off the generator, turns it into a bin, and moves the generator on by
`n` words. -/
def ReadsOff {α : Type} (draw : Generator → Except Fault (Nat × Generator)) (n : Nat)
    (variates : Generator → α) (bin : α → Except Fault Nat) : Prop :=
  ∀ g, draw g = (bin (variates g)).map (·, g.after n)

/-- The cell that the point sampled with a pair of variates falls into, as its index in the report. -/
def cellIndex (d : GridDensity) (u : Point Single) : Except Fault Nat := do
  let (p, _) ← d.sample u
  let v ← Bins.bin p.y d.rowCount
  let column ← Bins.bin p.x d.columns
  return v * d.columns + column

theorem drawBin_readsOff (d : StepDensity) :
    ReadsOff (drawBin d) 1 (fun g => g.nextUnit.1) d.bin := fun _ => rfl

theorem drawCell_readsOff (d : GridDensity) :
    ReadsOff (drawCell d) 2 (fun g => g.nextPoint.1) (cellIndex d) := by
  intro g
  show (d.sample g.nextPoint.1 >>= _) = Except.map _ (d.sample g.nextPoint.1 >>= _)
  cases d.sample g.nextPoint.1 with
  | error f => rfl
  | ok sampled =>
      show (Bins.bin sampled.1.y d.rowCount >>= _) = Except.map _ (Bins.bin sampled.1.y d.rowCount >>= _)
      cases Bins.bin sampled.1.y d.rowCount with
      | error f => rfl
      | ok v =>
          show (Bins.bin sampled.1.x d.columns >>= _) = Except.map _ (Bins.bin sampled.1.x d.columns >>= _)
          cases Bins.bin sampled.1.x d.columns <;> rfl

section

variable {α : Type} {draw : Generator → Except Fault (Nat × Generator)} {n : Nat}
  {variates : Generator → α} {bin : α → Except Fault Nat}

/-- The bins of a chain of draws are those of the variates that stand `n` words apart, and the chain
leaves the generator behind the last of them. -/
theorem Draws.eq_map (hReads : ReadsOff draw n variates bin) {g last : Generator} {ks : List Nat}
    (hDraws : Draws draw g ks last) :
    last = g.after (n * ks.length) ∧
      ks.map Except.ok = (List.range ks.length).map fun j => bin (variates (g.after (n * j))) := by
  induction hDraws with
  | none => exact ⟨rfl, rfl⟩
  | @next g after last k ks hDraw _ ih =>
      obtain ⟨hLast, hBins⟩ := ih
      rw [hReads g] at hDraw
      cases hBin : bin (variates g) with
      | error f =>
          rw [hBin] at hDraw
          cases hDraw
      | ok k' =>
          rw [hBin] at hDraw
          cases hDraw
          have hShift : ∀ j, g.after (n * (j + 1)) = (g.after n).after (n * j) := by
            intro j
            rw [Nat.mul_succ, Nat.add_comm, Generator.after_add]
          refine ⟨by rw [List.length_cons, hShift, hLast], ?_⟩
          rw [List.map_cons, hBins, List.length_cons, List.range_succ_eq_map, List.map_cons,
            List.map_map, Nat.mul_zero, Generator.after_zero, hBin]
          simp only [Function.comp_def, Nat.succ_eq_add_one, hShift]

/-- A tally moves the generator by the words of its draws. -/
theorem after_of_tally (hReads : ReadsOff draw n variates bin) {samples : Nat} {g last : Generator}
    {counts counted : Array Nat} (hTally : tally draw samples g counts = .ok (counted, last)) :
    last = g.after (n * samples) := by
  obtain ⟨ks, hDraws, hLength, _, _⟩ := tally_eq_ok hTally
  rw [(hDraws.eq_map hReads).1, hLength]

end

/-! ## The generator after a survey -/

theorem conclude_error {g : Generator} {result : Except Fault (Report × Generator)} {e : SurveyError}
    (hError : (conclude g result).1 = .error e) : (conclude g result).2 = g := by
  cases result with
  | error f => rfl
  | ok pair => cases hError

/-- A survey of a list that gives up leaves the generator as it was. -/
theorem generator_of_row_error {weights : List Single} {samples : Nat} {g : Generator}
    {e : SurveyError} (hError : (row weights samples g).1 = .error e) :
    (row weights samples g).2 = g := by
  unfold row at hError ⊢
  cases hBuild : StepDensity.build weights with
  | error r => rfl
  | ok d =>
      simp only [hBuild] at hError
      exact conclude_error hError

/-- A survey of a list draws one word for each sample. -/
theorem generator_of_row_ok {weights : List Single} {samples : Nat} {g : Generator}
    {report : Report} (hReport : (row weights samples g).1 = .ok report) :
    (row weights samples g).2 = g.after samples := by
  obtain ⟨d, _, _, _, hTally, _, _⟩ :=
    row_eq_ok (show row weights samples g = (.ok report, _) from Prod.ext hReport rfl)
  have hAfter := after_of_tally (drawBin_readsOff d) hTally
  rwa [Nat.one_mul] at hAfter

/-- A survey of a table that gives up leaves the generator as it was. -/
theorem generator_of_table_error {rows : List (List Single)} {samples threads : Nat} {g : Generator}
    {e : SurveyError} (hError : (table rows samples threads g).1 = .error e) :
    (table rows samples threads g).2 = g := by
  unfold table at hError ⊢
  cases hTable : buildTable rows threads with
  | error e => rfl
  | ok d =>
      simp only [hTable] at hError
      exact conclude_error hError

/-- A survey of a table draws two words for each sample. -/
theorem generator_of_table_ok {rows : List (List Single)} {samples threads : Nat} {g : Generator}
    {report : Report} (hReport : (table rows samples threads g).1 = .ok report) :
    (table rows samples threads g).2 = g.after (2 * samples) := by
  obtain ⟨d, _, _, _, _, hTally, _, _⟩ :=
    table_eq_ok (show table rows samples threads g = (.ok report, _) from Prod.ext hReport rfl)
  exact after_of_tally (drawCell_readsOff d) hTally

/-! ## The number of workers -/

/-- What building the density of a table can end with, over all executions of the pool. -/
inductive Builds (rows : List (List Single)) (threads : Nat) : Except SurveyError GridDensity → Prop
  /-- No more than one worker is asked for. -/
  | alone (hAlone : threads ≤ 1) : Builds rows threads ((GridDensity.ofTable rows).mapError .refused)
  /-- A pool is asked for, but the rows have different lengths. -/
  | ragged (hPool : 1 < threads) (hRagged : ∃ row ∈ rows, row.length ≠ GridDensity.width rows) :
      Builds rows threads (.error .ragged)
  /-- A pool has built the concatenation of the rows. -/
  | pooled (hPool : 1 < threads) (hEqual : ∀ row ∈ rows, row.length = GridDensity.width rows)
      {built : Except Refusal GridDensity}
      (hReturns : GridDensity.Returns threads rows.flatten (GridDensity.width rows) rows.length built) :
      Builds rows threads (built.mapError .refused)

/-- What a survey returns once building its density has ended. -/
def resume (samples : Nat) (g : Generator) :
    Except SurveyError GridDensity → Except SurveyError Report × Generator
  | .error e => (.error e, g)
  | .ok d => conclude g (ofGrid d samples g)

theorem table_eq_resume (rows : List (List Single)) (samples threads : Nat) (g : Generator) :
    table rows samples threads g = resume samples g (buildTable rows threads) := by
  unfold table
  cases buildTable rows threads <;> rfl

theorem forall_length_eq_width {rows : List (List Single)}
    (hEqual : ∀ a ∈ rows, ∀ b ∈ rows, a.length = b.length) :
    ∀ row ∈ rows, row.length = GridDensity.width rows := by
  intro row hMem
  cases rows with
  | nil => cases hMem
  | cons first rest => exact hEqual row hMem first List.mem_cons_self

theorem exists_length_ne_width {rows : List (List Single)}
    (hRagged : ∃ a ∈ rows, ∃ b ∈ rows, a.length ≠ b.length) :
    ∃ row ∈ rows, row.length ≠ GridDensity.width rows := by
  obtain ⟨a, ha, b, hb, hDiffer⟩ := hRagged
  by_cases hFirst : a.length = GridDensity.width rows
  · exact ⟨b, hb, fun hSecond => hDiffer (hFirst.trans hSecond.symm)⟩
  · exact ⟨a, ha, hFirst⟩

/-- Rows of one length are built as their concatenation, however many workers there are. -/
theorem buildTable_of_equal {rows : List (List Single)}
    (hEqual : ∀ row ∈ rows, row.length = GridDensity.width rows) (threads : Nat) :
    buildTable rows threads =
      (GridDensity.build rows.flatten (GridDensity.width rows) rows.length).mapError .refused := by
  have hAny : rows.any (·.length != GridDensity.width rows) = false := by
    simpa using hEqual
  by_cases hPool : 1 < threads
  · rw [buildTable, if_pos hPool, hAny, if_neg Bool.false_ne_true,
      GridDensity.eq_build_of_returns (GridDensity.returns_buildWith threads _ _ _)]
  · rw [buildTable, if_neg hPool, GridDensity.ofTable_of_equal hEqual]

/-- Rows of different lengths are an error, with a pool or without. -/
theorem buildTable_of_ragged {rows : List (List Single)}
    (hRagged : ∃ row ∈ rows, row.length ≠ GridDensity.width rows) (threads : Nat) :
    ∃ e, buildTable rows threads = .error e := by
  have hAny : rows.any (·.length != GridDensity.width rows) = true := by
    simpa using hRagged
  by_cases hPool : 1 < threads
  · exact ⟨.ragged, by rw [buildTable, if_pos hPool, if_pos hAny]⟩
  · obtain ⟨_, _, _, _, _, hRefused⟩ := GridDensity.ofTable_of_ragged hRagged
    exact ⟨_, by rw [buildTable, if_neg hPool, hRefused]; rfl⟩

/-- Over all executions of the pool, building a table ends in one way only. -/
theorem eq_buildTable_of_builds {rows : List (List Single)} {threads : Nat}
    {built : Except SurveyError GridDensity} (hBuilds : Builds rows threads built) :
    built = buildTable rows threads := by
  cases hBuilds with
  | alone hAlone => rw [buildTable, if_neg (by omega)]
  | ragged hPool hRagged =>
      rw [buildTable, if_pos hPool, if_pos (by simpa using hRagged)]
  | pooled hPool hEqual hReturns =>
      rw [GridDensity.eq_build_of_returns hReturns, buildTable_of_equal hEqual]

/-- **Surveys do not depend on the workers, and account for their draws.**  A survey of a table returns
the same result over all executions of the pool; for rows of one length that result, be it a report or
an error, and the generator after it are the same for any two numbers of workers, and for rows of
different lengths it is an error for every number.  A survey that gives up leaves the generator as it
was; one that succeeds has drawn one word for each sample of a list, two for each of a table.  No survey
of as many weights as a word can count breaks off with a fault. -/
theorem survey_determined (samples : Nat) (g : Generator) :
    (∀ (rows : List (List Single)) (threads : Nat) (built : Except SurveyError GridDensity),
      Builds rows threads built → resume samples g built = table rows samples threads g) ∧
    (∀ rows : List (List Single), (∀ a ∈ rows, ∀ b ∈ rows, a.length = b.length) →
      ∀ t₁ t₂, table rows samples t₁ g = table rows samples t₂ g) ∧
    (∀ rows : List (List Single), (∃ a ∈ rows, ∃ b ∈ rows, a.length ≠ b.length) →
      ∀ threads, ∃ e, (table rows samples threads g).1 = .error e) ∧
    (∀ weights : List Single,
      (∀ e, (row weights samples g).1 = .error e → (row weights samples g).2 = g) ∧
      (∀ report, (row weights samples g).1 = .ok report →
        (row weights samples g).2 = g.after samples) ∧
      (weights.length < 2 ^ 64 → ∀ f, (row weights samples g).1 ≠ .error (.fault f))) ∧
    ∀ (rows : List (List Single)) (threads : Nat),
      (∀ e, (table rows samples threads g).1 = .error e → (table rows samples threads g).2 = g) ∧
      (∀ report, (table rows samples threads g).1 = .ok report →
        (table rows samples threads g).2 = g.after (2 * samples)) ∧
      (rows.flatten.length < 2 ^ 64 → ∀ f, (table rows samples threads g).1 ≠ .error (.fault f)) := by
  refine ⟨?_, ?_, ?_, ?_, ?_⟩
  · intro rows threads built hBuilds
    rw [table_eq_resume, eq_buildTable_of_builds hBuilds]
  · intro rows hEqual t₁ t₂
    have hWidth := forall_length_eq_width hEqual
    rw [table_eq_resume, table_eq_resume, buildTable_of_equal hWidth, buildTable_of_equal hWidth]
  · intro rows hRagged threads
    obtain ⟨e, hError⟩ := buildTable_of_ragged (exists_length_ne_width hRagged) threads
    rw [table_eq_resume, hError]
    exact ⟨e, rfl⟩
  · intro weights
    exact ⟨fun _ => generator_of_row_error, fun _ => generator_of_row_ok,
      fun hWord => row_ne_fault hWord samples g⟩
  · intro rows threads
    exact ⟨fun _ => generator_of_table_error, fun _ => generator_of_table_ok,
      fun hWord => table_ne_fault hWord samples threads g⟩

/-- Two samples of a table without workers and with more than it has rows, of a table whose second row
is empty, and of a list with a weight that is refused. -/
theorem survey_determined_two :
    table [[.zero, .one], [.one, .one]] 2 0 (.ofSeed 7) =
      table [[.zero, .one], [.one, .one]] 2 9 (.ofSeed 7) ∧
    (table [[.zero, .one], [.one, .one]] 2 9 (.ofSeed 7)).2 = (Generator.ofSeed 7).after 4 ∧
    (∃ e, (table [[.one], []] 2 4 (.ofSeed 7)).1 = .error e) ∧
    (row [.one, .nan] 2 (.ofSeed 7)).2 = .ofSeed 7 := by
  obtain ⟨_, hEqual, hRagged, hRow, hTable⟩ := survey_determined 2 (.ofSeed 7)
  refine ⟨hEqual _ (by decide) 0 9, ?_, hRagged _ (by decide) 4, ?_⟩
  · obtain ⟨_, hAdvanced, _⟩ := hTable [[.zero, .one], [.one, .one]] 9
    cases hReport : (table [[.zero, .one], [.one, .one]] 2 9 (.ofSeed 7)).1 with
    | ok report => exact hAdvanced report hReport
    | error e =>
        have hOk : (table [[.zero, .one], [.one, .one]] 2 9 (.ofSeed 7)).1.toOption.isSome = true := by
          decide +kernel
        rw [hReport] at hOk
        cases hOk
  · exact (hRow [.one, .nan]).1 (.refused (.badWeight .nan 1)) (by decide +kernel)

end Survey

end StepSampling
