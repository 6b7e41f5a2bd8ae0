/-!
# A pool of workers

A leader hands numbered tasks to a fixed number of workers and collects their results.  Tasks go
through a bounded queue and results through a channel that can hold all of them; nothing else is
shared.  The leader first sends every task, then closes the queue and collects until the result
channel is closed, which is when every worker has stopped, or until a failure arrives, upon which it
leaves.  A worker takes a task, does it, sends the result and starts over; it stops when the queue is
closed and empty, or when it finds the leader gone.

A worker learns that the leader is gone only when it sends.  A task that it has taken is therefore
done even after another task has failed, and its result is lost.  `State.done` keeps the tasks in the
order in which they were done, lost results included.

`Plan.step` gives, for a state and an actor, the state after that actor's next move, if it has one.
An execution is a sequence of such moves in any order.
-/

namespace StepSampling.Pool

variable {ε α : Type}

/-- What is to be done, and by how many. -/
structure Plan (ε α : Type) where
  /-- The number of tasks. -/
  tasks : Nat
  /-- The number of workers, and the capacity of the queue. -/
  workers : Nat
  /-- What doing a task gives. -/
  job : Nat → Except ε α

/-- What a worker is at. -/
inductive Worker (ε α : Type) where
  /-- Waiting for a task. -/
  | idle
  /-- Having taken a task that is not done yet. -/
  | busy (task : Nat)
  /-- Holding the result of a task. -/
  | holding (task : Nat) (result : Except ε α)
  /-- Gone. -/
  | stopped

/-- Whether the worker is gone. -/
def Worker.isStopped : Worker ε α → Bool
  | .idle => false
  | .busy _ => false
  | .holding _ _ => false
  | .stopped => true

/-- What the leader is at. -/
inductive Leader (ε : Type) where
  /-- Putting tasks into the queue. -/
  | sending
  /-- Taking results out of the channel. -/
  | collecting
  /-- Gone because of a failure. -/
  | failed (e : ε)
  /-- Gone after the last result. -/
  | finished
  deriving DecidableEq, Repr

/-- Whether the leader still holds its end of the result channel. -/
def Leader.listens : Leader ε → Bool
  | .sending => true
  | .collecting => true
  | .failed _ => false
  | .finished => false

/-- Whether the leader still holds its end of the queue. -/
def Leader.sends : Leader ε → Bool
  | .sending => true
  | .collecting => false
  | .failed _ => false
  | .finished => false

/-- A state of the whole pool. -/
structure State (ε α : Type) where
  /-- What the leader is at. -/
  leader : Leader ε
  /-- How many tasks have been sent; the next task to be sent. -/
  sent : Nat
  /-- The tasks in the queue, the oldest first. -/
  queue : List Nat
  /-- What each worker is at. -/
  workers : Array (Worker ε α)
  /-- The tasks that have been done, the oldest first. -/
  done : List Nat
  /-- The results in the channel, the oldest first. -/
  results : List (Nat × Except ε α)
  /-- The results collected, by task. -/
  slots : Array (Option α)

/-- Who makes a move. -/
inductive Actor where
  /-- The leader. -/
  | leader
  /-- The worker with the given index. -/
  | worker (i : Nat)
  deriving DecidableEq, Repr

namespace State

/-- Whether every worker is gone. -/
def deserted (s : State ε α) : Bool := s.workers.all Worker.isStopped

/-- What the leader returns once it is gone. -/
def outcome (s : State ε α) : Except ε (List α) :=
  match s.leader with
  | .failed e => .error e
  | _ => .ok (s.slots.toList.filterMap id)

/-- Whether the leader and every worker is gone. -/
def final (s : State ε α) : Bool := !s.leader.listens && s.deserted

/-- The state in which one worker has moved on. -/
def withWorker (s : State ε α) (i : Nat) (w : Worker ε α) : State ε α :=
  { s with workers := s.workers.setIfInBounds i w }

end State

namespace Plan

/-- The state before the first move. -/
def start (plan : Plan ε α) : State ε α where
  leader := .sending
  sent := 0
  queue := []
  workers := Array.replicate plan.workers .idle
  done := []
  results := []
  slots := Array.replicate plan.tasks none

/-- The leader's next move. -/
def leaderStep (plan : Plan ε α) (s : State ε α) : Option (State ε α) :=
  match s.leader with
  | .sending =>
    if plan.tasks ≤ s.sent || s.deserted then some { s with leader := .collecting }
    else if s.queue.length < plan.workers then
      some { s with sent := s.sent + 1, queue := s.queue ++ [s.sent] }
    else none
  | .collecting =>
    match s.results with
    | [] => if s.deserted then some { s with leader := .finished } else none
    | (v, .ok a) :: rest =>
      some { s with results := rest, slots := s.slots.setIfInBounds v (some a) }
    | (_, .error e) :: rest => some { s with results := rest, leader := .failed e }
  | .failed _ => none
  | .finished => none

/-- A worker's next move. -/
def workerStep (plan : Plan ε α) (s : State ε α) (i : Nat) : Option (State ε α) :=
  match s.workers[i]? with
  | none => none
  | some .idle =>
    match s.queue with
    | v :: rest => some ({ s with queue := rest }.withWorker i (.busy v))
    | [] => if s.leader.sends then none else some (s.withWorker i .stopped)
  | some (.busy v) =>
    some ({ s with done := s.done ++ [v] }.withWorker i (.holding v (plan.job v)))
  | some (.holding v result) =>
    if !s.leader.listens then some (s.withWorker i .stopped)
    else if s.results.length < plan.tasks then
      some ({ s with results := s.results ++ [(v, result)] }.withWorker i .idle)
    else none
  | some .stopped => none

/-- An actor's next move. -/
def step (plan : Plan ε α) (s : State ε α) : Actor → Option (State ε α)
  | .leader => plan.leaderStep s
  | .worker i => plan.workerStep s i

end Plan

end StepSampling.Pool
