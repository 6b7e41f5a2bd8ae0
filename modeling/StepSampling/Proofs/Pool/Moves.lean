import StepSampling.Pool.Execution

/-!
# The moves of a pool

`Plan.step` says what an actor does next by cases on the whole state.  `Plan.Move` lists the ten
things that can happen, each with the condition under which it does and the state that it leads to,
and `step_eq_some_iff` says that the list is right.  Every invariant is proved over this list.

`Plan.Execution` is the set of all executions.  Any actor that has a move may make it, and the tasks
whose results the leader has stored are kept as a history, in the order in which it stored them.
-/

namespace StepSampling.Pool

variable {ε α : Type}

/-! ## Single moves -/

/-- One move of a pool. -/
inductive Plan.Move (plan : Plan ε α) (s : State ε α) : Actor → State ε α → Prop
  /-- The leader closes the queue. -/
  | close (hLeader : s.leader = .sending) (hDone : plan.tasks ≤ s.sent ∨ s.deserted = true) :
      Move plan s .leader { s with leader := .collecting }
  /-- The leader puts the next task into the queue. -/
  | send (hLeader : s.leader = .sending) (hMore : s.sent < plan.tasks)
      (hStaffed : s.deserted = false) (hRoom : s.queue.length < plan.workers) :
      Move plan s .leader { s with sent := s.sent + 1, queue := s.queue ++ [s.sent] }
  /-- The leader finds the result channel closed. -/
  | finish (hLeader : s.leader = .collecting) (hResults : s.results = [])
      (hDeserted : s.deserted = true) :
      Move plan s .leader { s with leader := .finished }
  /-- The leader stores a result. -/
  | store {v : Nat} {a : α} {rest : List (Nat × Except ε α)} (hLeader : s.leader = .collecting)
      (hResults : s.results = (v, .ok a) :: rest) :
      Move plan s .leader
        { s with results := rest, slots := s.slots.setIfInBounds v (some a) }
  /-- The leader meets a failure. -/
  | fail {v : Nat} {e : ε} {rest : List (Nat × Except ε α)} (hLeader : s.leader = .collecting)
      (hResults : s.results = (v, .error e) :: rest) :
      Move plan s .leader { s with results := rest, leader := .failed e }
  /-- A worker takes a task. -/
  | take {i v : Nat} {rest : List Nat} (hWorker : s.workers[i]? = some .idle)
      (hQueue : s.queue = v :: rest) :
      Move plan s (.worker i) ({ s with queue := rest }.withWorker i (.busy v))
  /-- A worker finds the queue closed and empty. -/
  | retire {i : Nat} (hWorker : s.workers[i]? = some .idle) (hQueue : s.queue = [])
      (hClosed : s.leader.sends = false) :
      Move plan s (.worker i) (s.withWorker i .stopped)
  /-- A worker does its task. -/
  | work {i v : Nat} (hWorker : s.workers[i]? = some (.busy v)) :
      Move plan s (.worker i)
        ({ s with done := s.done ++ [v] }.withWorker i (.holding v (plan.job v)))
  /-- A worker sends its result. -/
  | deliver {i v : Nat} {result : Except ε α} (hWorker : s.workers[i]? = some (.holding v result))
      (hListens : s.leader.listens = true) (hRoom : s.results.length < plan.tasks) :
      Move plan s (.worker i)
        ({ s with results := s.results ++ [(v, result)] }.withWorker i .idle)
  /-- A worker finds the leader gone, and its result is lost. -/
  | lose {i v : Nat} {result : Except ε α} (hWorker : s.workers[i]? = some (.holding v result))
      (hGone : s.leader.listens = false) :
      Move plan s (.worker i) (s.withWorker i .stopped)

namespace Plan

theorem move_of_leaderStep {plan : Plan ε α} {s t : State ε α}
    (hStep : plan.leaderStep s = some t) : plan.Move s .leader t := by
  unfold leaderStep at hStep
  split at hStep
  next hLeader =>
    split at hStep
    next hDone =>
      cases hStep
      exact .close hLeader (by simpa using hDone)
    next hMore =>
      simp only [Bool.or_eq_true, decide_eq_true_eq, not_or, Nat.not_le,
        Bool.not_eq_true] at hMore
      split at hStep
      next hRoom =>
        cases hStep
        exact .send hLeader hMore.1 hMore.2 hRoom
      next => cases hStep
  next hLeader =>
    split at hStep
    next hResults =>
      split at hStep
      next hDeserted =>
        cases hStep
        exact .finish hLeader hResults hDeserted
      next => cases hStep
    next hResults =>
      cases hStep
      exact .store hLeader hResults
    next hResults =>
      cases hStep
      exact .fail hLeader hResults
  next => cases hStep
  next => cases hStep

theorem move_of_workerStep {plan : Plan ε α} {s t : State ε α} {i : Nat}
    (hStep : plan.workerStep s i = some t) : plan.Move s (.worker i) t := by
  unfold workerStep at hStep
  split at hStep
  next => cases hStep
  next hWorker =>
    split at hStep
    next hQueue =>
      cases hStep
      exact .take hWorker hQueue
    next hQueue =>
      split at hStep
      next => cases hStep
      next hClosed =>
        cases hStep
        exact .retire hWorker hQueue (by simpa using hClosed)
  next hWorker =>
    cases hStep
    exact .work hWorker
  next hWorker =>
    split at hStep
    next hGone =>
      cases hStep
      exact .lose hWorker (by simpa using hGone)
    next hListens =>
      split at hStep
      next hRoom =>
        cases hStep
        exact .deliver hWorker (by simpa using hListens) hRoom
      next => cases hStep
  next => cases hStep

/-- The moves are the steps. -/
theorem step_eq_some_iff (plan : Plan ε α) (s t : State ε α) (actor : Actor) :
    plan.step s actor = some t ↔ plan.Move s actor t := by
  constructor
  · intro hStep
    cases actor with
    | leader => exact move_of_leaderStep hStep
    | worker i => exact move_of_workerStep hStep
  · intro hMove
    cases hMove with
    | close hLeader hDone => simp [step, leaderStep, hLeader, hDone]
    | send hLeader hMore hStaffed hRoom =>
        simp [step, leaderStep, hLeader, Nat.not_le.mpr hMore, hStaffed, hRoom]
    | finish hLeader hResults hDeserted => simp [step, leaderStep, hLeader, hResults, hDeserted]
    | store hLeader hResults => simp [step, leaderStep, hLeader, hResults]
    | fail hLeader hResults => simp [step, leaderStep, hLeader, hResults]
    | take hWorker hQueue => simp [step, workerStep, hWorker, hQueue]
    | retire hWorker hQueue hClosed => simp [step, workerStep, hWorker, hQueue, hClosed]
    | work hWorker => simp [step, workerStep, hWorker]
    | deliver hWorker hListens hRoom => simp [step, workerStep, hWorker, hListens, hRoom]
    | lose hWorker hGone => simp [step, workerStep, hWorker, hGone]

end Plan

/-! ## Executions -/

/-- The task whose result the actor's next move stores, if it stores one. -/
def State.storing (s : State ε α) : Actor → List Nat
  | .leader =>
    match s.leader, s.results with
    | .collecting, (v, .ok _) :: _ => [v]
    | _, _ => []
  | .worker _ => []

/-- An execution that has led to a state, with the tasks stored on the way. -/
inductive Plan.Execution (plan : Plan ε α) : List Nat → State ε α → Prop
  /-- Nobody has moved yet. -/
  | start : Execution plan [] plan.start
  /-- Some actor has made one more move. -/
  | move {stored : List Nat} {s t : State ε α} {actor : Actor} (hExecution : Execution plan stored s)
      (hStep : plan.step s actor = some t) : Execution plan (stored ++ s.storing actor) t

end StepSampling.Pool
