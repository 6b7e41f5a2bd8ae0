import StepSampling.Proofs.Grid.Structure
import StepSampling.Proofs.Pool.Outcome

/-!
# Building with a pool of workers

Whoever moves when, building the rows with a pool gives what building them one after another gives.

If every row is built, the pool has them all, in their order, and the marginal is built from the same
rows.  If some rows are refused, the pool leaves with the refusal of any one of them, while the serial
construction leaves with the first.  These are the same refusal: every weight has been checked before
the first row is built, so that a row can only be refused because its integral overflows, and the
rows are equally long.
-/

namespace StepSampling.GridDensity

/-- What is returned when the pool has come to its end in a state. -/
def settle (s : Pool.State Refusal StepDensity) : Except Refusal GridDensity :=
  match s.outcome with
  | .error r => .error r
  | .ok built => ofRows built

/-- What building with a pool can return, over all executions of the pool. -/
inductive Returns (threads : Nat) (weights : List Single) (columns rows : Nat) :
    Except Refusal GridDensity → Prop
  /-- The weights are refused before the pool starts. -/
  | refused {r : Refusal} (hCheck : checkGrid weights columns rows = .error r) :
      Returns threads weights columns rows (.error r)
  /-- The pool has come to its end. -/
  | settled {stored : List Nat} {s : Pool.State Refusal StepDensity}
      (hCheck : checkGrid weights columns rows = .ok ())
      (hExecution : (plan weights columns rows threads).Execution stored s)
      (hFinal : s.final = true) : Returns threads weights columns rows (settle s)

variable {threads columns rows : Nat} {weights : List Single}

/-! ## The tasks -/

theorem crewSize_pos (threads : Nat) (hRows : 1 ≤ rows) : 0 < crewSize threads rows := by
  unfold crewSize clamp
  split
  · exact Nat.one_pos
  · split <;> omega

theorem plan_job {v : Nat} (hRow : v < rows) :
    (plan weights columns rows threads).job v =
      StepDensity.build ((weights.drop (v * columns)).take columns) := by
  have hPart := getElem?_stretches columns rows weights hRow
  simp [plan, hPart]

/-- All rows that are refused are refused alike. -/
theorem row_refusal (hCheck : checkGrid weights columns rows = .ok ()) {v : Nat} (hRow : v < rows)
    {r : Refusal}
    (hBuild : StepDensity.build ((weights.drop (v * columns)).take columns) = .error r) :
    r = .overflow columns := by
  obtain ⟨hColumns, _, hSize, hWeights⟩ := checkGrid_eq_ok hCheck
  have hLength := length_stretch hSize hRow
  have hStretch : checkWeights ((weights.drop (v * columns)).take columns) = .ok () := by
    rw [checkWeights_eq_ok_iff]
    refine ⟨List.ne_nil_of_length_pos (by omega), ?_⟩
    intro w hMem
    exact hWeights w (List.mem_of_mem_drop (List.mem_of_mem_take hMem))
  rw [StepDensity.build_eq_error hStretch hBuild, hLength]

theorem exists_refused_row {r : Refusal}
    (hSerial : (stretches columns rows weights).mapM StepDensity.build = .error r) :
    ∃ v < rows, StepDensity.build ((weights.drop (v * columns)).take columns) = .error r := by
  obtain ⟨part, hMem, hPart⟩ := exists_of_mapM_eq_error hSerial
  obtain ⟨v, hEntry⟩ := List.mem_iff_getElem?.mp hMem
  have hRow : v < rows := by
    obtain ⟨hLt, -⟩ := List.getElem?_eq_some_iff.mp hEntry
    rwa [length_stretches] at hLt
  rw [getElem?_stretches columns rows weights hRow] at hEntry
  cases hEntry
  exact ⟨v, hRow, hPart⟩

/-- If some row is refused, the serial construction leaves with the same refusal. -/
theorem mapM_eq_error (hCheck : checkGrid weights columns rows = .ok ()) {v : Nat}
    (hRow : v < rows) {r : Refusal}
    (hJob : (plan weights columns rows threads).job v = .error r) :
    (stretches columns rows weights).mapM StepDensity.build = .error r := by
  rw [plan_job hRow] at hJob
  cases hSerial : (stretches columns rows weights).mapM StepDensity.build with
  | ok built =>
      have hPart := getElem?_stretches columns rows weights hRow
      obtain ⟨_, _, hOk⟩ := (getElem?_of_mapM_eq_ok hSerial).2 v _ hPart
      rw [hJob] at hOk
      cases hOk
  | error first =>
      obtain ⟨u, hFirst, hRefused⟩ := exists_refused_row hSerial
      rw [row_refusal hCheck hFirst hRefused, row_refusal hCheck hRow hJob]

/-- If every row is built, the serial construction has the same rows. -/
theorem mapM_eq_ok {built : List StepDensity} (hLength : built.length = rows)
    (hJobs : ∀ v < rows, ∃ a, built[v]? = some a ∧
      (plan weights columns rows threads).job v = .ok a) :
    (stretches columns rows weights).mapM StepDensity.build = .ok built := by
  cases hSerial : (stretches columns rows weights).mapM StepDensity.build with
  | error r =>
      obtain ⟨v, hRow, hRefused⟩ := exists_refused_row hSerial
      obtain ⟨a, _, hJob⟩ := hJobs v hRow
      rw [plan_job hRow, hRefused] at hJob
      cases hJob
  | ok serial =>
      obtain ⟨hSerialLength, hSerialRows⟩ := getElem?_of_mapM_eq_ok hSerial
      rw [length_stretches] at hSerialLength
      congr 1
      apply List.ext_getElem?
      intro v
      by_cases hRow : v < rows
      · obtain ⟨a, hEntry, hJob⟩ := hJobs v hRow
        obtain ⟨b, hSerialEntry, hOk⟩ :=
          hSerialRows v _ (getElem?_stretches columns rows weights hRow)
        rw [plan_job hRow, hOk] at hJob
        cases hJob
        rw [hEntry, hSerialEntry]
      · rw [List.getElem?_eq_none (by omega), List.getElem?_eq_none (by omega)]

/-! ## The end of the pool -/

/-- Once the leader is gone, the pool has the rows that are built one after another. -/
theorem outcome_eq_mapM (hCheck : checkGrid weights columns rows = .ok ()) {stored : List Nat}
    {s : Pool.State Refusal StepDensity}
    (hConsistent : (plan weights columns rows threads).Consistent stored s)
    (hGone : s.leader.listens = false) :
    s.outcome = (stretches columns rows weights).mapM StepDensity.build := by
  cases hLeader : s.leader with
  | sending =>
      rw [hLeader] at hGone
      cases hGone
  | collecting =>
      rw [hLeader] at hGone
      cases hGone
  | failed r =>
      obtain ⟨v, hRow, hJob⟩ := hConsistent.truthful.failure r hLeader
      rw [mapM_eq_error hCheck hRow hJob, Pool.State.outcome, hLeader]
  | finished =>
      obtain ⟨built, hOutcome, hLength, hJobs⟩ := hConsistent.outcome_of_finished hLeader
      exact hOutcome.trans (mapM_eq_ok hLength hJobs).symm

theorem settle_eq_build (hCheck : checkGrid weights columns rows = .ok ()) {stored : List Nat}
    {s : Pool.State Refusal StepDensity}
    (hConsistent : (plan weights columns rows threads).Consistent stored s)
    (hGone : s.leader.listens = false) : settle s = build weights columns rows := by
  have hOutcome := outcome_eq_mapM hCheck hConsistent hGone
  cases hSerial : (stretches columns rows weights).mapM StepDensity.build with
  | error r =>
      rw [hSerial] at hOutcome
      simp only [settle, build, hOutcome, hCheck, hSerial]
  | ok built =>
      rw [hSerial] at hOutcome
      simp only [settle, build, hOutcome, hCheck, hSerial]

theorem consistent_of_execution (hCheck : checkGrid weights columns rows = .ok ())
    {stored : List Nat} {s : Pool.State Refusal StepDensity}
    (hExecution : (plan weights columns rows threads).Execution stored s) :
    (plan weights columns rows threads).Consistent stored s :=
  hExecution.consistent (crewSize_pos threads (checkGrid_eq_ok hCheck).2.1)

/-- The execution that is run is one of those that can be. -/
theorem returns_buildWith (threads : Nat) (weights : List Single) (columns rows : Nat) :
    Returns threads weights columns rows (buildWith threads weights columns rows) := by
  rw [buildWith]
  cases hCheck : checkGrid weights columns rows with
  | error r => exact .refused hCheck
  | ok =>
      have hCrew := crewSize_pos threads (checkGrid_eq_ok hCheck).2.1
      have hStart : (plan weights columns rows threads).Execution [] _ := .start
      obtain ⟨stored, hExecution, hFinal⟩ := hStart.run hCrew
      exact .settled hCheck hExecution hFinal

theorem eq_build_of_returns {result : Except Refusal GridDensity}
    (hReturns : Returns threads weights columns rows result) :
    result = build weights columns rows := by
  cases hReturns with
  | refused hCheck => rw [build, hCheck]
  | settled hCheck hExecution hFinal =>
      rw [Pool.State.final, Bool.and_eq_true, Bool.not_eq_true'] at hFinal
      exact settle_eq_build hCheck (consistent_of_execution hCheck hExecution) hFinal.1

/-- **The pool refines the serial construction.**  Over all executions of the pool, for every number
of workers asked for, the only result is that of the serial construction, be it a density or a refusal.
In every state that an execution can reach somebody has a move unless everybody is gone, every move
brings the end nearer, no row has been built twice or stored twice, and a leader that has finished
has all rows. -/
theorem crew_refines_build (threads : Nat) (weights : List Single) (columns rows : Nat) :
    (∀ result, Returns threads weights columns rows result ↔
      result = build weights columns rows) ∧
    (checkGrid weights columns rows = .ok () → ∀ stored s,
      (plan weights columns rows threads).Execution stored s →
        (s.final = true ∨ ∃ actor t, (plan weights columns rows threads).step s actor = some t) ∧
        (∀ actor t, (plan weights columns rows threads).step s actor = some t →
          t.weight (plan weights columns rows threads) <
            s.weight (plan weights columns rows threads)) ∧
        s.done.Nodup ∧ stored.Nodup ∧ (∀ v ∈ stored, v < rows) ∧
        (s.leader = .finished → ∃ built, s.outcome = .ok built ∧ built.length = rows)) := by
  refine ⟨?_, ?_⟩
  · intro result
    refine ⟨eq_build_of_returns, ?_⟩
    rintro rfl
    have hReturns := returns_buildWith threads weights columns rows
    rwa [eq_build_of_returns hReturns] at hReturns
  · intro hCheck stored s hExecution
    have hCrew := crewSize_pos threads (checkGrid_eq_ok hCheck).2.1
    have hConsistent := consistent_of_execution hCheck hExecution
    refine ⟨?_, fun actor t hStep => Pool.Plan.weight_lt_of_step _ s t actor hStep,
      hConsistent.done_nodup, hConsistent.stored_nodup, ?_, ?_⟩
    · by_cases hFinal : s.final = true
      · exact .inl hFinal
      · obtain ⟨actor, t, hMove⟩ := hConsistent.exists_move hCrew (Bool.eq_false_iff.mpr hFinal)
        exact .inr ⟨actor, t, (Pool.Plan.step_eq_some_iff _ s t actor).mpr hMove⟩
    · intro v hMem
      have hCount : 0 < stored.count v := List.count_pos_iff.mpr hMem
      apply hConsistent.lt_tasks
      rw [Pool.State.kept]
      omega
    · intro hLeader
      obtain ⟨built, hOutcome, hLength, _⟩ := hConsistent.outcome_of_finished hLeader
      exact ⟨built, hOutcome, hLength⟩

/-- Two rows that both overflow, and more workers asked for than there are rows. -/
theorem crew_refines_build_overflow :
    Returns 5 (List.replicate 20 Binary.infinity.down) 10 2 (.error (.overflow 10)) ∧
    ∃ stored s, (plan (List.replicate 20 Binary.infinity.down) 10 2 5).Execution stored s ∧
      s.final = true ∧ s.done.Nodup ∧ stored.Nodup ∧ ∀ v ∈ stored, v < 2 := by
  obtain ⟨hResults, hStates⟩ :=
    crew_refines_build 5 (List.replicate 20 Binary.infinity.down) 10 2
  have hStart : (plan (List.replicate 20 Binary.infinity.down) 10 2 5).Execution [] _ := .start
  obtain ⟨stored, hExecution, hFinal⟩ := hStart.run (by decide)
  obtain ⟨_, _, hDone, hStored, hRows, _⟩ := hStates (by decide +kernel) stored _ hExecution
  exact ⟨(hResults _).mpr (by decide +kernel), stored, _, hExecution, hFinal, hDone, hStored,
    hRows⟩

end StepSampling.GridDensity
