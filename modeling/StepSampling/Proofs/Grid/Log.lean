import StepSampling.Proofs.Grid.Crew
import StepSampling.Proofs.Pool.Log

/-!
# What is logged while a pool builds the rows

The workers log the rows as they build them, so that the records of different rows can stand in any
order and among one another.  After a refusal it also depends on the execution which of the other rows
are still built.  `ReturnsLogging` says what building can return and log over all executions.

All that the workers log are details of the lowest severity.  From the severity of an information
upwards the log is that of the leader alone, and it is settled by the weights.  If a density is
returned, every row has been logged, and two logs differ in the order of their records only.
-/

namespace StepSampling.GridDensity

/-- What is logged about the row of a task. -/
def planRecords (threads : Nat) (weights : List Single) (columns rows v : Nat) : List Record :=
  taskRecords ((plan weights columns rows threads).job v)

/-- What building with a pool can return and log, over all executions of the pool. -/
inductive ReturnsLogging (threads : Nat) (weights : List Single) (columns rows : Nat) :
    Except Refusal GridDensity → List Record → Prop
  /-- The weights are refused before the pool starts. -/
  | refused {r : Refusal} (hCheck : checkGrid weights columns rows = .error r) :
      ReturnsLogging threads weights columns rows (.error r) []
  /-- The pool has come to its end, and the leader has gone on with the marginal. -/
  | settled {stored : List Nat} {s : Pool.State Refusal StepDensity} {log : List (Nat × Record)}
      (hCheck : checkGrid weights columns rows = .ok ())
      (hLogged : (plan weights columns rows threads).Logged
        (planRecords threads weights columns rows) stored s log)
      (hFinal : s.final = true) :
      ReturnsLogging threads weights columns rows (settle s)
        (log.map Prod.snd ++ marginalRecords (crewClosing threads rows) (settle s))

variable {threads columns rows : Nat} {weights : List Single}
  {result : Except Refusal GridDensity} {records others : List Record}

/-- Without the log it is a building like any other. -/
theorem ReturnsLogging.returns (h : ReturnsLogging threads weights columns rows result records) :
    Returns threads weights columns rows result := by
  cases h with
  | refused hCheck => exact .refused hCheck
  | settled hCheck hLogged hFinal => exact .settled hCheck hLogged.execution hFinal

/-- The execution that is run, with its log. -/
theorem returnsLogging_buildWith (threads : Nat) (weights : List Single) (columns rows : Nat) :
    ReturnsLogging threads weights columns rows (buildWith threads weights columns rows)
      (crewRecords threads weights columns rows) := by
  rw [crewRecords]
  cases hCheck : checkGrid weights columns rows with
  | error r =>
      have hRefused : buildWith threads weights columns rows = .error r := by rw [buildWith, hCheck]
      rw [hRefused]
      exact .refused hCheck
  | ok =>
      have hCrew := crewSize_pos threads (checkGrid_eq_ok hCheck).2.1
      have hStart : (plan weights columns rows threads).Execution [] _ := .start
      obtain ⟨stored, hExecution, hFinal⟩ := hStart.run hCrew
      have hSettled : buildWith threads weights columns rows =
          settle (plan weights columns rows threads).finish := by
        rw [buildWith, hCheck]
        rfl
      have hLog : ∀ done : List Nat,
          (done.flatMap fun v => (planRecords threads weights columns rows v).map (v, ·)).map Prod.snd =
            done.flatMap fun v => taskRecords ((plan weights columns rows threads).job v) := by
        intro done
        rw [List.map_flatMap]
        apply List.flatMap_congr
        intro v _
        rw [List.map_map]
        exact List.map_id _
      rw [hSettled]
      dsimp only
      rw [← hLog]
      exact .settled hCheck (hExecution.logged hCrew _) hFinal

/-! ## What all logs have in common -/

/-- The records of a density are details. -/
theorem level_of_mem_records {d : StepDensity} : ∀ r ∈ d.records, r.level = .debug := by
  intro r hMem
  rw [StepDensity.records] at hMem
  split at hMem <;> simp at hMem
  · rcases hMem with rfl | rfl <;> rfl
  · rw [hMem]

/-- The records of the workers are details. -/
theorem level_of_mem_planRecords {v : Nat} :
    ∀ r ∈ planRecords threads weights columns rows v, r.level = .debug := by
  intro r hMem
  rw [planRecords] at hMem
  cases hJob : (plan weights columns rows threads).job v with
  | error refusal =>
      rw [hJob] at hMem
      cases hMem
  | ok d =>
      rw [hJob] at hMem
      exact level_of_mem_records r hMem

/-- Without details the log is that of the leader. -/
theorem ReturnsLogging.visible (h : ReturnsLogging threads weights columns rows result records) :
    Record.visible (some .info) records =
      Record.visible (some .info) (marginalRecords (crewClosing threads rows) result) := by
  cases h with
  | refused => rfl
  | settled hCheck hLogged hFinal =>
      rw [Record.visible_append, Record.visible_info_of_debug, List.nil_append]
      intro r hMem
      obtain ⟨entry, hEntry, rfl⟩ := List.mem_map.mp hMem
      exact level_of_mem_planRecords _ (hLogged.mem_notes entry hEntry)

/-- If a density is returned, all rows have been logged. -/
theorem ReturnsLogging.perm_rows {d : GridDensity}
    (h : ReturnsLogging threads weights columns rows (.ok d) records) :
    records.Perm ((List.range rows).flatMap (planRecords threads weights columns rows) ++
      marginalRecords (crewClosing threads rows) (.ok d)) := by
  generalize hResult : (Except.ok d : Except Refusal GridDensity) = returned at h
  cases h with
  | refused => cases hResult
  | @settled stored s log hCheck hLogged hFinal =>
      refine List.Perm.append_right _ ?_
      apply hLogged.perm_range (crewSize_pos threads (checkGrid_eq_ok hCheck).2.1) hFinal
      -- a leader that has left with a failure returns no density
      rw [Pool.State.final, Bool.and_eq_true] at hFinal
      cases hLeader : s.leader with
      | sending => simp [hLeader, Pool.Leader.listens] at hFinal
      | collecting => simp [hLeader, Pool.Leader.listens] at hFinal
      | failed r =>
          rw [settle, Pool.State.outcome, hLeader] at hResult
          cases hResult
      | finished => rfl

end StepSampling.GridDensity
