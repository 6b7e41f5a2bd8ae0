import StepSampling.Proofs.Pool.Invariant
import Mathlib.Data.List.Perm.Subperm

/-!
# How executions of a pool end

As long as somebody is still there, somebody has a move.  The queue may be full, but then a worker
can take from it, go on with its task or send its result, since the channel has room for a result of
every task and no task has two.

The leader leaves with the failure of some task, or with the results of all tasks in their order.
Which of the failures it leaves with depends on the execution, nothing else does.
-/

namespace StepSampling.Pool

variable {ε α : Type} {plan : Plan ε α} {s : State ε α} {stored : List Nat}

namespace Plan.Consistent

/-! ## No task twice -/

theorem done_nodup (hConsistent : plan.Consistent stored s) : s.done.Nodup :=
  List.nodup_iff_count_le_one.mpr hConsistent.accounted.done_count_le

theorem stored_nodup (hConsistent : plan.Consistent stored s) : stored.Nodup := by
  rw [List.nodup_iff_count_le_one]
  intro v
  have hOnce := hConsistent.accounted.kept_le v
  rw [State.kept] at hOnce
  omega

theorem lt_tasks (hConsistent : plan.Consistent stored s) {v : Nat}
    (hKept : 0 < s.kept stored v) : v < plan.tasks :=
  Nat.lt_of_lt_of_le (hConsistent.accounted.lt_sent hKept) hConsistent.phased.sent_le

/-! ## Somebody has a move -/

/-- There is room in the channel for a result that a worker holds. -/
theorem length_results_lt (hConsistent : plan.Consistent stored s) {i v : Nat}
    {result : Except ε α} (hWorker : s.workers[i]? = some (.holding v result)) :
    s.results.length < plan.tasks := by
  -- The held task and those in the channel differ from one another.
  have hCount : ∀ u, (v :: s.results.map Prod.fst).count u ≤ s.kept stored u := by
    intro u
    have hHeld := le_crewSum (Worker.keeping u) hWorker
    simp only [Worker.keeping] at hHeld
    simp only [List.count_cons, beq_iff_eq, State.kept]
    omega
  have hNodup : (v :: s.results.map Prod.fst).Nodup := by
    rw [List.nodup_iff_count_le_one]
    exact fun u => Nat.le_trans (hCount u) (hConsistent.accounted.kept_le u)
  have hSubset : v :: s.results.map Prod.fst ⊆ List.range plan.tasks := by
    intro u hMem
    have hPos := List.count_pos_iff.mpr hMem
    exact List.mem_range.mpr (hConsistent.lt_tasks (Nat.lt_of_lt_of_le hPos (hCount u)))
  have hLength := (List.subperm_of_subset hNodup hSubset).length_le
  rw [List.length_cons, List.length_map, List.length_range] at hLength
  exact hLength

/-- A worker that has not stopped can move, unless it waits for a task. -/
theorem worker_moves (hConsistent : plan.Consistent stored s) {i : Nat} {w : Worker ε α}
    (hWorker : s.workers[i]? = some w) (hRunning : w ≠ .stopped) :
    (∃ t, plan.Move s (.worker i) t) ∨ (s.queue = [] ∧ s.leader.sends = true) := by
  cases w with
  | idle =>
      cases hQueue : s.queue with
      | cons v rest => exact .inl ⟨_, .take hWorker hQueue⟩
      | nil =>
          cases hSends : s.leader.sends with
          | false => exact .inl ⟨_, .retire hWorker hQueue hSends⟩
          | true => exact .inr ⟨rfl, rfl⟩
  | busy v => exact .inl ⟨_, .work hWorker⟩
  | holding v result =>
      cases hListens : s.leader.listens with
      | false => exact .inl ⟨_, .lose hWorker hListens⟩
      | true =>
          exact .inl ⟨_, .deliver hWorker hListens (hConsistent.length_results_lt hWorker)⟩
  | stopped => exact absurd rfl hRunning

theorem exists_running (hDeserted : s.deserted = false) :
    ∃ (i : Nat) (w : Worker ε α), s.workers[i]? = some w ∧ w ≠ .stopped := by
  by_contra hNone
  rw [← Bool.not_eq_true, deserted_iff] at hDeserted
  apply hDeserted
  intro i w hWorker
  by_contra hRunning
  exact hNone ⟨i, w, hWorker, hRunning⟩

/-- A state that is not final has a move. -/
theorem exists_move (hConsistent : plan.Consistent stored s) (hCrew : 0 < plan.workers)
    (hFinal : s.final = false) : ∃ actor t, plan.Move s actor t := by
  cases hDeserted : s.deserted with
  | true =>
      -- Only the leader is left, and it is past sending.
      have hSends := (hConsistent.phased.stopped_of_deserted hCrew hDeserted).1
      cases hLeader : s.leader with
      | sending =>
          rw [hLeader] at hSends
          cases hSends
      | collecting =>
          cases hResults : s.results with
          | nil => exact ⟨_, _, .finish hLeader hResults hDeserted⟩
          | cons head rest =>
              obtain ⟨v, result⟩ := head
              cases result with
              | ok a => exact ⟨_, _, .store hLeader hResults⟩
              | error e => exact ⟨_, _, .fail hLeader hResults⟩
      | failed e => simp [State.final, hLeader, Leader.listens, hDeserted] at hFinal
      | finished => simp [State.final, hLeader, Leader.listens, hDeserted] at hFinal
  | false =>
      obtain ⟨i, w, hWorker, hRunning⟩ := exists_running hDeserted
      rcases hConsistent.worker_moves hWorker hRunning with ⟨t, hMove⟩ | ⟨hQueue, hSends⟩
      · exact ⟨_, t, hMove⟩
      · -- The workers wait for tasks, so the queue has room for the next one.
        have hLeader : s.leader = .sending := by
          cases hLeader : s.leader <;> rw [hLeader] at hSends <;> first | rfl | cases hSends
        by_cases hMore : s.sent < plan.tasks
        · have hRoom : s.queue.length < plan.workers := by rw [hQueue]; exact hCrew
          exact ⟨_, _, .send hLeader hMore hDeserted hRoom⟩
        · exact ⟨_, _, .close hLeader (.inl (Nat.le_of_not_lt hMore))⟩

/-! ## What the leader leaves with -/

/-- When the leader has finished, every task is stored. -/
theorem mem_stored (hConsistent : plan.Consistent stored s) (hLeader : s.leader = .finished)
    {v : Nat} (hTask : v < plan.tasks) : v ∈ stored := by
  obtain ⟨hQueue, hResults, hDeserted⟩ := hConsistent.phased.finished hLeader
  have hAll : s.sent = plan.tasks := hConsistent.phased.sent_eq (by rw [hLeader]; rfl)
  have hOnce : (List.range s.sent).count v = 1 :=
    List.count_eq_one_of_mem List.nodup_range (List.mem_range.mpr (hAll ▸ hTask))
  have hSent := hConsistent.accounted.sent v
  have hKept := hConsistent.accounted.done_eq (by simp [hLeader]) v
  have hStopped := deserted_iff.mp hDeserted
  rw [hQueue, crewSum_eq_zero rfl hStopped, hOnce] at hSent
  rw [State.kept, hResults, crewSum_eq_zero rfl hStopped] at hKept
  simp only [List.count_nil, List.map_nil] at hSent hKept
  exact List.count_pos_iff.mp (by omega)

/-- When the leader has finished, it has the results of all tasks in their order. -/
theorem outcome_of_finished (hConsistent : plan.Consistent stored s)
    (hLeader : s.leader = .finished) :
    ∃ built, s.outcome = .ok built ∧ built.length = plan.tasks ∧
      ∀ v < plan.tasks, ∃ a, built[v]? = some a ∧ plan.job v = .ok a := by
  have hSlots : ∀ v < plan.tasks, ∃ a, s.slots[v]? = some (some a) ∧ plan.job v = .ok a :=
    fun v hTask => hConsistent.truthful.slots v (hConsistent.mem_stored hLeader hTask)
  have hFull : ∀ slot ∈ s.slots.toList, slot.isSome = true := by
    intro slot hMem
    obtain ⟨v, hEntry⟩ := List.mem_iff_getElem?.mp hMem
    rw [Array.getElem?_toList] at hEntry
    obtain ⟨hLt, -⟩ := Array.getElem?_eq_some_iff.mp hEntry
    rw [hConsistent.phased.board] at hLt
    obtain ⟨a, hSlot, -⟩ := hSlots v hLt
    rw [hSlot] at hEntry
    cases hEntry
    rfl
  have hBuilt : (s.slots.toList.filterMap id).map some = s.slots.toList := by
    rw [List.map_filterMap_some_eq_filter_map_isSome, List.map_id,
      List.filter_eq_self.mpr hFull]
  refine ⟨s.slots.toList.filterMap id, by rw [State.outcome, hLeader], ?_, ?_⟩
  · have hLength := congrArg List.length hBuilt
    rw [List.length_map] at hLength
    rw [hLength, Array.length_toList, hConsistent.phased.board]
  · intro v hTask
    obtain ⟨a, hSlot, hJob⟩ := hSlots v hTask
    have hEntry := congrArg (·[v]?) hBuilt
    simp only [List.getElem?_map, Array.getElem?_toList, hSlot, Option.map_eq_some_iff,
      Option.some.injEq, exists_eq_right] at hEntry
    exact ⟨a, hEntry, hJob⟩

/-! ## Running until the end -/

/-- Where no actor of the list has a move, nobody has. -/
theorem step_eq_none (hConsistent : plan.Consistent stored s) (hNone : plan.firstMove s = none)
    (actor : Actor) : plan.step s actor = none := by
  rw [Plan.firstMove, List.findSome?_eq_none_iff] at hNone
  cases actor with
  | leader => exact hNone .leader (by simp [Plan.actors])
  | worker i =>
      by_cases hWorker : i < plan.workers
      · exact hNone (.worker i) (by simp [Plan.actors, hWorker])
      · have hAbsent : s.workers[i]? = none := by
          rw [Array.getElem?_eq_none_iff, hConsistent.phased.crew]
          exact Nat.le_of_not_lt hWorker
        rw [Plan.step, Plan.workerStep, hAbsent]

end Plan.Consistent

/-- Running goes on until nobody is left. -/
theorem Plan.Execution.run (hExecution : plan.Execution stored s) (hCrew : 0 < plan.workers) :
    ∃ stored', plan.Execution stored' (plan.run s) ∧ (plan.run s).final = true := by
  fun_induction Plan.run plan s generalizing stored with
  | case1 s hNone =>
      refine ⟨stored, hExecution, ?_⟩
      by_contra hFinal
      have hConsistent := hExecution.consistent hCrew
      obtain ⟨actor, t, hMove⟩ := hConsistent.exists_move hCrew (Bool.eq_false_iff.mpr hFinal)
      have hStep := (plan.step_eq_some_iff s t actor).mpr hMove
      rw [hConsistent.step_eq_none hNone actor] at hStep
      cases hStep
  | case2 s t hFirst hWeight ih =>
      obtain ⟨actor, -, hStep⟩ := List.exists_of_findSome?_eq_some hFirst
      exact ih (.move hExecution hStep)

end StepSampling.Pool
