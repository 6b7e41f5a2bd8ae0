import StepSampling.Proofs.Pool.Moves
import Mathlib.Data.List.Nodup

/-!
# What every execution of a pool keeps

Three invariants, each kept by each of the ten moves.

* `Plan.Phased`: how far the parties have come.  A worker stops only when no task is left to take or
  the leader is gone, and the leader is through with sending only when every task has been sent.
* `State.Accounted`: where each task is.  A task that has been sent is in the queue, with a worker,
  or done, and once; a task that is done is with a worker, in the channel or stored, and once, unless
  it was lost after a failure.
* `Plan.Truthful`: what the results are.  Whatever is held, in the channel or in a slot is what the
  plan gives for its task.

The accounts are kept by counting, for each task, how often it is in each place.  Every move then
takes one from a place and adds one to the next, and nothing about the order of the moves matters.
-/

namespace StepSampling.Pool

variable {ε α : Type} {plan : Plan ε α} {s t : State ε α} {stored : List Nat} {actor : Actor}

/-! ## The crew -/

theorem getElem?_withWorker {i j : Nat} {w old : Worker ε α} (hWorker : s.workers[i]? = some old) :
    (s.withWorker i w).workers[j]? = if i = j then some w else s.workers[j]? := by
  obtain ⟨hLt, -⟩ := Array.getElem?_eq_some_iff.mp hWorker
  simp only [State.withWorker, Array.getElem?_setIfInBounds, hLt, if_true]

/-- A worker that goes on adds nobody to those who have stopped. -/
theorem stopped_of_withWorker {i j : Nat} {w old : Worker ε α}
    (hStopped : (s.withWorker i w).workers[j]? = some .stopped)
    (hWorker : s.workers[i]? = some old) (hRunning : w ≠ .stopped) :
    s.workers[j]? = some .stopped := by
  rw [getElem?_withWorker hWorker] at hStopped
  split at hStopped
  · cases hStopped
    exact absurd rfl hRunning
  · exact hStopped

theorem deserted_iff :
    s.deserted = true ↔ ∀ (i : Nat) (w : Worker ε α), s.workers[i]? = some w → w = .stopped := by
  have hStopped : ∀ w : Worker ε α, w.isStopped = true ↔ w = .stopped := by
    intro w
    cases w <;> simp [Worker.isStopped]
  simp only [State.deserted, Array.all_eq_true, hStopped, Array.getElem?_eq_some_iff]
  constructor
  · rintro hAll i w ⟨hLt, rfl⟩
    exact hAll i hLt
  · intro hAll i hLt
    exact hAll i _ ⟨hLt, rfl⟩

theorem le_crewSum {i : Nat} {w : Worker ε α} (f : Worker ε α → Nat)
    (hWorker : s.workers[i]? = some w) : f w ≤ crewSum f s.workers := by
  have hMem : w ∈ s.workers.toList := Array.mem_toList_iff.mpr (Array.mem_of_getElem? hWorker)
  rw [crewSum]
  generalize s.workers.toList = workers at hMem ⊢
  induction workers with
  | nil => cases hMem
  | cons a rest ih =>
      rw [List.foldr_cons]
      rcases List.mem_cons.mp hMem with rfl | hRest
      · exact Nat.le_add_right _ _
      · exact Nat.le_trans (ih hRest) (Nat.le_add_left _ _)

theorem crewSum_eq_zero {f : Worker ε α → Nat} {w : Worker ε α} (hZero : f w = 0)
    (hAll : ∀ (i : Nat) (w' : Worker ε α), s.workers[i]? = some w' → w' = w) :
    crewSum f s.workers = 0 := by
  have hList : ∀ w' ∈ s.workers.toList, w' = w := by
    intro w' hMem
    obtain ⟨i, hEntry⟩ := Array.mem_iff_getElem?.mp (Array.mem_toList_iff.mp hMem)
    exact hAll i w' hEntry
  rw [crewSum]
  generalize s.workers.toList = workers at hList ⊢
  induction workers with
  | nil => rfl
  | cons a rest ih =>
      rw [List.foldr_cons, hList a List.mem_cons_self, hZero, Nat.zero_add]
      exact ih fun w' hMem => hList w' (List.mem_cons_of_mem a hMem)

/-! ## How far the parties have come -/

structure Plan.Phased (plan : Plan ε α) (s : State ε α) : Prop where
  crew : s.workers.size = plan.workers
  board : s.slots.size = plan.tasks
  sent_le : s.sent ≤ plan.tasks
  sent_eq : s.leader.sends = false → s.sent = plan.tasks
  stopped : ∀ i : Nat, s.workers[i]? = some .stopped →
    s.leader.sends = false ∧ (s.queue = [] ∨ s.leader.listens = false)
  finished : s.leader = .finished → s.queue = [] ∧ s.results = [] ∧ s.deserted = true

theorem Plan.start_phased (plan : Plan ε α) : plan.Phased plan.start where
  crew := Array.size_replicate
  board := Array.size_replicate
  sent_le := Nat.zero_le _
  sent_eq hSends := by simp [start, Leader.sends] at hSends
  stopped i hStopped := by simp [start, Array.getElem?_replicate] at hStopped
  finished hLeader := by cases hLeader

theorem Plan.Phased.stopped_of_deserted (hPhased : plan.Phased s) (hCrew : 0 < plan.workers)
    (hDeserted : s.deserted = true) :
    s.leader.sends = false ∧ (s.queue = [] ∨ s.leader.listens = false) := by
  have hLt : 0 < s.workers.size := by rw [hPhased.crew]; exact hCrew
  have hFirst : s.workers[0]? = some s.workers[0] := Array.getElem?_eq_getElem hLt
  apply hPhased.stopped 0
  rw [hFirst, deserted_iff.mp hDeserted 0 _ hFirst]

/-- Where some worker has not stopped, the leader has not finished. -/
theorem Plan.Phased.not_finished {i : Nat} {w : Worker ε α} (hPhased : plan.Phased s)
    (hWorker : s.workers[i]? = some w) (hRunning : w ≠ .stopped) : s.leader ≠ .finished := by
  intro hLeader
  exact hRunning (deserted_iff.mp (hPhased.finished hLeader).2.2 i w hWorker)

/-- For a worker's move only the stopped workers are of concern. -/
theorem Plan.Phased.of_worker {i : Nat} {w old : Worker ε α} {queue done : List Nat}
    {results : List (Nat × Except ε α)} (hPhased : plan.Phased s)
    (hWorker : s.workers[i]? = some old) (hRunning : old ≠ .stopped)
    (hStopped : ∀ j : Nat, (s.withWorker i w).workers[j]? = some .stopped →
      s.leader.sends = false ∧ (queue = [] ∨ s.leader.listens = false)) :
    plan.Phased
      ({ s with queue := queue, done := done, results := results }.withWorker i w) := by
  refine { hPhased with crew := ?_, stopped := hStopped, finished := ?_ }
  · rw [State.withWorker, Array.size_setIfInBounds]
    exact hPhased.crew
  · exact fun hFinished => absurd hFinished (hPhased.not_finished hWorker hRunning)

theorem Plan.Move.phased (hMove : plan.Move s actor t) (hCrew : 0 < plan.workers)
    (hPhased : plan.Phased s) : plan.Phased t := by
  cases hMove with
  | close hLeader hDone =>
      -- A crew that is gone would have stopped while the queue was open.
      have hSent : s.sent = plan.tasks := by
        rcases hDone with hAll | hDeserted
        · exact Nat.le_antisymm hPhased.sent_le hAll
        · exact hPhased.sent_eq (hPhased.stopped_of_deserted hCrew hDeserted).1
      refine { hPhased with sent_eq := fun _ => hSent, stopped := ?_, finished := by simp }
      intro i hStopped
      have hSends := (hPhased.stopped i hStopped).1
      rw [hLeader] at hSends
      cases hSends
  | send hLeader hMore hStaffed hRoom =>
      refine { hPhased with sent_le := hMore, sent_eq := ?_, stopped := ?_, finished := ?_ }
      · intro hSends
        rw [hLeader] at hSends
        cases hSends
      · intro i hStopped
        have hSends := (hPhased.stopped i hStopped).1
        rw [hLeader] at hSends
        cases hSends
      · intro hFinished
        rw [hLeader] at hFinished
        cases hFinished
  | finish hLeader hResults hDeserted =>
      have hQueue : s.queue = [] := by
        rcases (hPhased.stopped_of_deserted hCrew hDeserted).2 with hQueue | hListens
        · exact hQueue
        · rw [hLeader] at hListens
          cases hListens
      refine { hPhased with sent_eq := ?_, stopped := ?_, finished := ?_ }
      · intro _
        exact hPhased.sent_eq (by rw [hLeader]; rfl)
      · exact fun _ _ => ⟨rfl, .inr rfl⟩
      · exact fun _ => ⟨hQueue, hResults, hDeserted⟩
  | store hLeader hResults =>
      refine { hPhased with board := ?_, finished := ?_ }
      · rw [Array.size_setIfInBounds]
        exact hPhased.board
      · intro hFinished
        rw [hLeader] at hFinished
        cases hFinished
  | fail hLeader hResults =>
      refine { hPhased with sent_eq := ?_, stopped := ?_, finished := by simp }
      · intro _
        exact hPhased.sent_eq (by rw [hLeader]; rfl)
      · exact fun _ _ => ⟨rfl, .inr rfl⟩
  | take hWorker hQueue =>
      refine hPhased.of_worker hWorker (by simp) ?_
      intro j hStopped
      obtain ⟨hSends, hRest⟩ :=
        hPhased.stopped j (stopped_of_withWorker hStopped hWorker (by simp))
      refine ⟨hSends, .inr ?_⟩
      rcases hRest with hEmpty | hListens
      · rw [hQueue] at hEmpty
        cases hEmpty
      · exact hListens
  | retire hWorker hQueue hClosed =>
      exact hPhased.of_worker hWorker (by simp) (fun _ _ => ⟨hClosed, .inl hQueue⟩)
  | work hWorker =>
      refine hPhased.of_worker hWorker (by simp) ?_
      intro j hStopped
      exact hPhased.stopped j (stopped_of_withWorker hStopped hWorker (by simp))
  | deliver hWorker hListens hRoom =>
      refine hPhased.of_worker hWorker (by simp) ?_
      intro j hStopped
      exact hPhased.stopped j (stopped_of_withWorker hStopped hWorker (by simp))
  | lose hWorker hGone =>
      have hSends : s.leader.sends = false := by
        cases hLeader : s.leader <;> rw [hLeader] at hGone <;> first | rfl | cases hGone
      exact hPhased.of_worker hWorker (by simp) (fun _ _ => ⟨hSends, .inr hGone⟩)

/-! ## Where each task is -/

/-- How often a worker has taken the task without having done it. -/
def Worker.doing (task : Nat) : Worker ε α → Nat
  | .busy v => if v = task then 1 else 0
  | _ => 0

/-- How often a worker holds a result of the task. -/
def Worker.keeping (task : Nat) : Worker ε α → Nat
  | .holding v _ => if v = task then 1 else 0
  | _ => 0

/-- How often a result of the task is with a worker, in the channel or stored. -/
def State.kept (s : State ε α) (stored : List Nat) (task : Nat) : Nat :=
  crewSum (Worker.keeping task) s.workers + (s.results.map Prod.fst).count task +
    stored.count task

structure State.Accounted (s : State ε α) (stored : List Nat) : Prop where
  sent : ∀ v, s.done.count v + s.queue.count v + crewSum (Worker.doing v) s.workers =
    (List.range s.sent).count v
  done_ge : ∀ v, s.kept stored v ≤ s.done.count v
  done_eq : (∀ e, s.leader ≠ .failed e) → ∀ v, s.kept stored v = s.done.count v

theorem Plan.start_accounted (plan : Plan ε α) : plan.start.Accounted [] := by
  have hIdle : ∀ f : Worker ε α → Nat, f .idle = 0 → crewSum f plan.start.workers = 0 := by
    intro f hZero
    apply crewSum_eq_zero hZero
    intro i w hWorker
    simp only [start, Array.getElem?_replicate] at hWorker
    split at hWorker
    · exact (Option.some.inj hWorker).symm
    · cases hWorker
  have hKept : ∀ v, plan.start.kept [] v = 0 := by
    intro v
    rw [State.kept, hIdle _ rfl]
    rfl
  refine ⟨?_, ?_, ?_⟩
  · intro v
    rw [hIdle _ rfl]
    rfl
  · exact fun v => Nat.le_of_eq (hKept v)
  · exact fun _ v => hKept v

namespace State.Accounted

variable {stored' : List Nat}

/-- Results pass from place to place, and none is lost. -/
theorem of_passed (hAccounted : s.Accounted stored)
    (hSent : ∀ v, t.done.count v + t.queue.count v + crewSum (Worker.doing v) t.workers =
      (List.range t.sent).count v)
    (hPassed : ∀ v, t.kept stored' v + s.done.count v = s.kept stored v + t.done.count v)
    (hFailed : ∀ e, s.leader = .failed e → t.leader = .failed e) : t.Accounted stored' := by
  refine ⟨hSent, ?_, ?_⟩
  · intro v
    have hBefore := hAccounted.done_ge v
    have hMoved := hPassed v
    omega
  · intro hRunning v
    have hBefore := hAccounted.done_eq (fun e hLeader => hRunning e (hFailed e hLeader)) v
    have hMoved := hPassed v
    omega

/-- After a failure a result may be lost. -/
theorem of_lost {e : ε} (hAccounted : s.Accounted stored)
    (hSent : ∀ v, t.done.count v + t.queue.count v + crewSum (Worker.doing v) t.workers =
      (List.range t.sent).count v)
    (hLost : ∀ v, t.kept stored' v ≤ s.kept stored v) (hDone : t.done = s.done)
    (hFailed : t.leader = .failed e) : t.Accounted stored' := by
  refine ⟨hSent, ?_, ?_⟩
  · intro v
    rw [hDone]
    exact Nat.le_trans (hLost v) (hAccounted.done_ge v)
  · exact fun hRunning => absurd hFailed (hRunning e)

/-- For a worker's move only the counts of what it changes are of concern. -/
theorem of_worker {i : Nat} {w old : Worker ε α} {queue done : List Nat}
    {results : List (Nat × Except ε α)} (hAccounted : s.Accounted stored)
    (hWorker : s.workers[i]? = some old)
    (hSent : ∀ v, done.count v + queue.count v + w.doing v =
      s.done.count v + s.queue.count v + old.doing v)
    (hPassed : ∀ v, w.keeping v + (results.map Prod.fst).count v + s.done.count v =
      old.keeping v + (s.results.map Prod.fst).count v + done.count v) :
    ({ s with queue := queue, done := done, results := results }.withWorker i w).Accounted
      stored := by
  refine hAccounted.of_passed ?_ ?_ (fun e hFailed => hFailed)
  · intro v
    have hBefore := hAccounted.sent v
    have hCrew := crewSum_setIfInBounds (Worker.doing v) w hWorker
    have hChange := hSent v
    simp only [State.withWorker]
    omega
  · intro v
    have hCrew := crewSum_setIfInBounds (Worker.keeping v) w hWorker
    have hChange := hPassed v
    simp only [State.kept, State.withWorker]
    omega

end State.Accounted

theorem Plan.Move.accounted (hMove : plan.Move s actor t) (hPhased : plan.Phased s)
    (hAccounted : s.Accounted stored) : t.Accounted (stored ++ s.storing actor) := by
  have hSent := hAccounted.sent
  cases hMove with
  | close hLeader hDone =>
      refine hAccounted.of_passed hSent ?_ ?_
      · intro u
        simp [State.kept, State.storing, hLeader]
      · intro e hFailed
        rw [hLeader] at hFailed
        cases hFailed
  | send hLeader hMore hStaffed hRoom =>
      refine hAccounted.of_passed ?_ ?_ ?_
      · intro u
        have hBefore := hSent u
        simp only [List.range_succ, List.count_append]
        omega
      · intro u
        simp [State.kept, State.storing, hLeader]
      · exact fun e hFailed => hFailed
  | finish hLeader hResults hDeserted =>
      refine hAccounted.of_passed hSent ?_ ?_
      · intro u
        simp [State.kept, State.storing, hLeader, hResults]
      · intro e hFailed
        rw [hLeader] at hFailed
        cases hFailed
  | store hLeader hResults =>
      refine hAccounted.of_passed hSent ?_ ?_
      · intro u
        simp only [State.kept, State.storing, hLeader, hResults, List.map_cons, List.count_cons,
          List.count_append, List.count_nil]
        omega
      · exact fun e hFailed => hFailed
  | fail hLeader hResults =>
      refine hAccounted.of_lost hSent ?_ rfl rfl
      intro u
      simp only [State.kept, State.storing, hLeader, hResults, List.map_cons, List.count_cons,
        List.append_nil]
      omega
  | take hWorker hQueue =>
      rw [State.storing, List.append_nil]
      apply hAccounted.of_worker hWorker
      · intro u
        simp only [hQueue, List.count_cons, beq_iff_eq, Worker.doing]
        omega
      · exact fun u => rfl
  | retire hWorker hQueue hClosed =>
      rw [State.storing, List.append_nil]
      exact hAccounted.of_worker hWorker (fun u => rfl) (fun u => rfl)
  | work hWorker =>
      rw [State.storing, List.append_nil]
      apply hAccounted.of_worker hWorker
      · intro u
        simp only [List.count_append, List.count_singleton, beq_iff_eq, Worker.doing]
        omega
      · intro u
        simp only [List.count_append, List.count_singleton, beq_iff_eq, Worker.keeping]
        omega
  | deliver hWorker hListens hRoom =>
      rw [State.storing, List.append_nil]
      apply hAccounted.of_worker hWorker
      · exact fun u => rfl
      · intro u
        simp only [List.map_append, List.map_cons, List.map_nil, List.count_append,
          List.count_singleton, beq_iff_eq, Worker.keeping]
        omega
  | lose hWorker hGone =>
      obtain ⟨e, hFailed⟩ : ∃ e, s.leader = .failed e := by
        cases hLeader : s.leader with
        | sending => rw [hLeader] at hGone; cases hGone
        | collecting => rw [hLeader] at hGone; cases hGone
        | failed e => exact ⟨e, rfl⟩
        | finished => exact absurd hLeader (hPhased.not_finished hWorker (by simp))
      refine hAccounted.of_lost ?_ ?_ rfl hFailed
      · intro u
        have hBefore := hSent u
        have hCrew := crewSum_setIfInBounds (Worker.doing u) .stopped hWorker
        simp only [State.withWorker, Worker.doing] at hCrew ⊢
        omega
      · intro u
        have hCrew := crewSum_setIfInBounds (Worker.keeping u) .stopped hWorker
        simp only [Worker.keeping] at hCrew
        simp only [State.kept, State.withWorker, State.storing, List.append_nil]
        omega

namespace State.Accounted

theorem done_count_le (hAccounted : s.Accounted stored) (v : Nat) : s.done.count v ≤ 1 := by
  have hSent := hAccounted.sent v
  have hOnce := List.nodup_iff_count_le_one.mp (List.nodup_range (n := s.sent)) v
  omega

theorem kept_le (hAccounted : s.Accounted stored) (v : Nat) : s.kept stored v ≤ 1 :=
  Nat.le_trans (hAccounted.done_ge v) (hAccounted.done_count_le v)

theorem lt_sent (hAccounted : s.Accounted stored) {v : Nat} (hKept : 0 < s.kept stored v) :
    v < s.sent := by
  have hSent := hAccounted.sent v
  have hDone := hAccounted.done_ge v
  have hCount : 0 < (List.range s.sent).count v := by omega
  exact List.mem_range.mp (List.count_pos_iff.mp hCount)

end State.Accounted

theorem State.kept_of_mem_results {v : Nat} {result : Except ε α}
    (hMem : (v, result) ∈ s.results) : 0 < s.kept stored v := by
  have hCount : 0 < (s.results.map Prod.fst).count v :=
    List.count_pos_iff.mpr (List.mem_map_of_mem hMem)
  rw [kept]
  omega

/-! ## What the results are -/

structure Plan.Truthful (plan : Plan ε α) (stored : List Nat) (s : State ε α) : Prop where
  holding : ∀ (i v : Nat) (result : Except ε α),
    s.workers[i]? = some (.holding v result) → result = plan.job v
  results : ∀ v result, (v, result) ∈ s.results → result = plan.job v
  slots : ∀ v ∈ stored, ∃ a, s.slots[v]? = some (some a) ∧ plan.job v = .ok a
  failure : ∀ e, s.leader = .failed e → ∃ v < plan.tasks, plan.job v = .error e

theorem Plan.start_truthful (plan : Plan ε α) : plan.Truthful [] plan.start where
  holding i v result hWorker := by simp [start, Array.getElem?_replicate] at hWorker
  results v result hMem := by cases hMem
  slots v hMem := by cases hMem
  failure e hLeader := by cases hLeader

/-- A worker that takes up something other than a false result leaves the held results true. -/
theorem Plan.Truthful.holding_withWorker {i : Nat} {w old : Worker ε α}
    (hTruthful : plan.Truthful stored s) (hWorker : s.workers[i]? = some old)
    (hTrue : ∀ v result, w = .holding v result → result = plan.job v) (j v : Nat)
    (result : Except ε α)
    (hHolding : (s.withWorker i w).workers[j]? = some (.holding v result)) :
    result = plan.job v := by
  rw [getElem?_withWorker hWorker] at hHolding
  split at hHolding
  · exact hTrue v result (Option.some.inj hHolding)
  · exact hTruthful.holding j v result hHolding

theorem Plan.Move.truthful (hMove : plan.Move s actor t) (hPhased : plan.Phased s)
    (hAccounted : s.Accounted stored) (hTruthful : plan.Truthful stored s) :
    plan.Truthful (stored ++ s.storing actor) t := by
  cases hMove with
  | close hLeader hDone =>
      refine { hTruthful with slots := ?_, failure := by simp }
      simpa [State.storing, hLeader] using hTruthful.slots
  | send hLeader hMore hStaffed hRoom =>
      refine { hTruthful with slots := ?_ }
      simpa [State.storing, hLeader] using hTruthful.slots
  | finish hLeader hResults hDeserted =>
      refine { hTruthful with slots := ?_, failure := by simp }
      simpa [State.storing, hLeader, hResults] using hTruthful.slots
  | @store v a rest hLeader hResults =>
      have hHead : (v, Except.ok a) ∈ s.results := by simp [hResults]
      have hJob := hTruthful.results v _ hHead
      have hSlot : v < s.slots.size := by
        have hLt := hAccounted.lt_sent (State.kept_of_mem_results hHead)
        rw [hPhased.board]
        exact Nat.lt_of_lt_of_le hLt hPhased.sent_le
      refine { hTruthful with results := ?_, slots := ?_ }
      · intro u result hMem
        exact hTruthful.results u result (by simp [hResults, hMem])
      · intro u hMem
        simp only [State.storing, hLeader, hResults, List.mem_append, List.mem_singleton] at hMem
        by_cases hSame : v = u
        · subst hSame
          exact ⟨a, Array.getElem?_setIfInBounds_self_of_lt hSlot, hJob.symm⟩
        · rw [Array.getElem?_setIfInBounds_ne hSame]
          exact hTruthful.slots u (hMem.resolve_right (Ne.symm hSame))
  | @fail v e rest hLeader hResults =>
      have hHead : (v, Except.error e) ∈ s.results := by simp [hResults]
      have hLt := hAccounted.lt_sent (State.kept_of_mem_results hHead)
      refine { hTruthful with results := ?_, slots := ?_, failure := ?_ }
      · intro u result hMem
        exact hTruthful.results u result (by simp [hResults, hMem])
      · simpa [State.storing, hLeader, hResults] using hTruthful.slots
      · intro e' hFailed
        cases hFailed
        exact ⟨v, Nat.lt_of_lt_of_le hLt hPhased.sent_le, (hTruthful.results v _ hHead).symm⟩
  | take hWorker hQueue =>
      refine { hTruthful with holding := ?_, slots := ?_ }
      · exact hTruthful.holding_withWorker hWorker (by simp)
      · simpa [State.storing, State.withWorker] using hTruthful.slots
  | retire hWorker hQueue hClosed =>
      refine { hTruthful with holding := ?_, slots := ?_ }
      · exact hTruthful.holding_withWorker hWorker (by simp)
      · simpa [State.storing, State.withWorker] using hTruthful.slots
  | work hWorker =>
      refine { hTruthful with holding := ?_, slots := ?_ }
      · refine hTruthful.holding_withWorker hWorker ?_
        intro u result hHolding
        cases hHolding
        rfl
      · simpa [State.storing, State.withWorker] using hTruthful.slots
  | @deliver i v result hWorker hListens hRoom =>
      refine { hTruthful with holding := ?_, results := ?_, slots := ?_ }
      · exact hTruthful.holding_withWorker hWorker (by simp)
      · intro u result' hMem
        rcases List.mem_append.mp hMem with hBefore | hNew
        · exact hTruthful.results u result' hBefore
        · cases List.mem_singleton.mp hNew
          exact hTruthful.holding i v result hWorker
      · simpa [State.storing, State.withWorker] using hTruthful.slots
  | lose hWorker hGone =>
      refine { hTruthful with holding := ?_, slots := ?_ }
      · exact hTruthful.holding_withWorker hWorker (by simp)
      · simpa [State.storing, State.withWorker] using hTruthful.slots

/-! ## Executions -/

structure Plan.Consistent (plan : Plan ε α) (stored : List Nat) (s : State ε α) : Prop where
  phased : plan.Phased s
  accounted : s.Accounted stored
  truthful : plan.Truthful stored s

/-- Every execution keeps the three invariants. -/
theorem Plan.Execution.consistent (hExecution : plan.Execution stored s)
    (hCrew : 0 < plan.workers) : plan.Consistent stored s := by
  induction hExecution with
  | start => exact ⟨plan.start_phased, plan.start_accounted, plan.start_truthful⟩
  | move hExecution hStep ih =>
      have hMove := (plan.step_eq_some_iff _ _ _).mp hStep
      exact ⟨hMove.phased hCrew ih.phased, hMove.accounted ih.phased ih.accounted,
        hMove.truthful ih.phased ih.accounted ih.truthful⟩

end StepSampling.Pool
