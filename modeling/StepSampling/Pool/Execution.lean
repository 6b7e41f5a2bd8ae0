import StepSampling.Pool.Basic

/-!
# Executing a pool

Each move of a pool lowers a weight: a task counts less the further it has come, a worker counts
until it has stopped, and the leader's phases count down.  Hence every execution ends, whoever moves
when.

`Plan.run` is the execution in which the workers go ahead: the first worker that has a move makes it,
and the leader moves when no worker can.  In it every task that is sent is done before the leader
looks at the results.
-/

namespace StepSampling.Pool

variable {ε α : Type}

/-- What a worker adds to the weight of a state. -/
def Worker.weight : Worker ε α → Nat
  | .idle => 1
  | .busy _ => 4
  | .holding _ _ => 3
  | .stopped => 0

/-- What the leader adds to the weight of a state. -/
def Leader.weight : Leader ε → Nat
  | .sending => 2
  | .collecting => 1
  | .failed _ => 0
  | .finished => 0

/-- The sum of a quantity over all workers. -/
def crewSum (f : Worker ε α → Nat) (workers : Array (Worker ε α)) : Nat :=
  workers.toList.foldr (fun w total => f w + total) 0

/-- The weight of all workers. -/
def crewWeight (workers : Array (Worker ε α)) : Nat := crewSum Worker.weight workers

/-- A bound on the number of moves that are left. -/
def State.weight (plan : Plan ε α) (s : State ε α) : Nat :=
  5 * (plan.tasks - s.sent) + 4 * s.queue.length + s.results.length + crewWeight s.workers +
    s.leader.weight

private theorem foldr_add_set (f : Worker ε α → Nat) (l : List (Worker ε α)) (i : Nat)
    (w w' : Worker ε α) (hGet : l[i]? = some w) :
    (l.set i w').foldr (fun w total => f w + total) 0 + f w =
      l.foldr (fun w total => f w + total) 0 + f w' := by
  induction l generalizing i with
  | nil => simp at hGet
  | cons a rest ih =>
    cases i with
    | zero =>
      simp only [List.getElem?_cons_zero, Option.some.injEq] at hGet
      subst hGet
      simp only [List.set_cons_zero, List.foldr_cons]
      omega
    | succ i =>
      simp only [List.getElem?_cons_succ] at hGet
      have hRest := ih i hGet
      simp only [List.set_cons_succ, List.foldr_cons]
      omega

/-- Replacing one worker exchanges what it adds to a sum. -/
theorem crewSum_setIfInBounds (f : Worker ε α → Nat) {workers : Array (Worker ε α)} {i : Nat}
    {w : Worker ε α} (w' : Worker ε α) (hGet : workers[i]? = some w) :
    crewSum f (workers.setIfInBounds i w') + f w = crewSum f workers + f w' := by
  have hList : workers.toList[i]? = some w := by simpa using hGet
  rw [crewSum, crewSum, Array.toList_setIfInBounds, foldr_add_set f _ i w w' hList]

/-- Replacing one worker exchanges its weight. -/
theorem crewWeight_setIfInBounds (workers : Array (Worker ε α)) (i : Nat) (w w' : Worker ε α)
    (hGet : workers[i]? = some w) :
    crewWeight (workers.setIfInBounds i w') + w.weight = crewWeight workers + w'.weight :=
  crewSum_setIfInBounds Worker.weight w' hGet

namespace Plan

/-- A move of the leader lowers the weight. -/
theorem weight_lt_of_leaderStep (plan : Plan ε α) (s t : State ε α)
    (hStep : plan.leaderStep s = some t) : t.weight plan < s.weight plan := by
  unfold leaderStep at hStep
  split at hStep
  next hLeader =>
    split at hStep
    · cases hStep
      simp only [State.weight, hLeader, Leader.weight]
      omega
    · next hMore =>
      split at hStep
      · cases hStep
        have hSent : s.sent < plan.tasks := by
          simp only [Bool.or_eq_true, decide_eq_true_eq, not_or] at hMore
          omega
        simp only [State.weight, List.length_append, List.length_singleton]
        omega
      · cases hStep
  next hLeader =>
    split at hStep
    · split at hStep
      · cases hStep
        simp only [State.weight, hLeader, Leader.weight]
        omega
      · cases hStep
    · next hResults =>
      cases hStep
      simp only [State.weight, hResults, List.length_cons]
      omega
    · next hResults =>
      cases hStep
      simp only [State.weight, hResults, hLeader, Leader.weight, List.length_cons]
      omega
  · cases hStep
  · cases hStep

/-- A move of a worker lowers the weight. -/
theorem weight_lt_of_workerStep (plan : Plan ε α) (s t : State ε α) (i : Nat)
    (hStep : plan.workerStep s i = some t) : t.weight plan < s.weight plan := by
  unfold workerStep at hStep
  split at hStep
  · cases hStep
  next hWorker =>
    have hCrew := fun w' => crewWeight_setIfInBounds s.workers i .idle w' hWorker
    split at hStep
    next v rest hQueue =>
      cases hStep
      have hBusy := hCrew (.busy v)
      simp only [Worker.weight] at hBusy
      simp only [State.weight, State.withWorker, hQueue, List.length_cons]
      omega
    next =>
      split at hStep
      · cases hStep
      · cases hStep
        have hStopped := hCrew .stopped
        simp only [Worker.weight] at hStopped
        simp only [State.weight, State.withWorker]
        omega
  next v hWorker =>
    cases hStep
    have hHolding := crewWeight_setIfInBounds s.workers i (.busy v) (.holding v (plan.job v)) hWorker
    simp only [Worker.weight] at hHolding
    simp only [State.weight, State.withWorker]
    omega
  next v result hWorker =>
    have hCrew := fun w' => crewWeight_setIfInBounds s.workers i (.holding v result) w' hWorker
    split at hStep
    · cases hStep
      have hStopped := hCrew .stopped
      simp only [Worker.weight] at hStopped
      simp only [State.weight, State.withWorker]
      omega
    · split at hStep
      · cases hStep
        have hIdle := hCrew .idle
        simp only [Worker.weight] at hIdle
        simp only [State.weight, State.withWorker, List.length_append, List.length_singleton]
        omega
      · cases hStep
  · cases hStep

/-- Every move lowers the weight. -/
theorem weight_lt_of_step (plan : Plan ε α) (s t : State ε α) (actor : Actor)
    (hStep : plan.step s actor = some t) : t.weight plan < s.weight plan := by
  cases actor with
  | leader => exact weight_lt_of_leaderStep plan s t hStep
  | worker i => exact weight_lt_of_workerStep plan s t i hStep

/-- All actors, the leader last. -/
def actors (plan : Plan ε α) : List Actor :=
  (List.range plan.workers).map .worker ++ [.leader]

/-- The state after the move of the first actor that has one. -/
def firstMove (plan : Plan ε α) (s : State ε α) : Option (State ε α) :=
  plan.actors.findSome? (plan.step s)

/-- The first move lowers the weight. -/
theorem weight_lt_of_firstMove (plan : Plan ε α) (s t : State ε α)
    (hMove : plan.firstMove s = some t) : t.weight plan < s.weight plan := by
  obtain ⟨actor, _, hStep⟩ := List.exists_of_findSome?_eq_some hMove
  exact weight_lt_of_step plan s t actor hStep

/-- Makes moves until none is left. -/
def run (plan : Plan ε α) (s : State ε α) : State ε α :=
  match hMove : plan.firstMove s with
  | none => s
  | some t =>
    have := weight_lt_of_firstMove plan s t hMove
    run plan t
termination_by s.weight plan

/-- The state after the last move. -/
def finish (plan : Plan ε α) : State ε α := plan.run plan.start

/-- The results of all tasks in order, or a failure. -/
def execute (plan : Plan ε α) : Except ε (List α) := plan.finish.outcome

end Plan

end StepSampling.Pool
