import StepSampling.Proofs.Pool.Outcome
import Mathlib.Data.List.Basic

/-!
# The log of a pool

While a worker does a task it logs what there is to say about it, one record after another.  Nothing
orders the records of different workers: between two records of a task any other worker may log, and
any actor may move.  `Plan.Logged` adds the log to the executions of a pool.  Each record is kept with
its task, so that the log itself tells what a worker has still to log.

The log is thus as free as the execution.  Once everybody is gone, however, it holds the records of
every task that was done, in the order of that task, and nothing else.  If the leader has finished,
all tasks were done, and any two logs hold the same records in different orders.
-/

namespace StepSampling.Pool

variable {ε α ρ : Type} {plan : Plan ε α} {notes : Nat → List ρ} {s t : State ε α} {actor : Actor}
  {stored : List Nat} {log : List (Nat × ρ)} {v : Nat}

/-! ## Records of one task -/

/-- What has been logged of a task. -/
def said (log : List (Nat × ρ)) (task : Nat) : List ρ :=
  (log.filter (·.1 == task)).map Prod.snd

theorem said_append (a b : List (Nat × ρ)) (v : Nat) : said (a ++ b) v = said a v ++ said b v := by
  rw [said, List.filter_append, List.map_append]
  rfl

theorem said_map (rs : List ρ) (v : Nat) : said (rs.map (v, ·)) v = rs := by
  simp [said, List.filter_map, Function.comp_def]

theorem said_eq_nil (hOther : ∀ entry ∈ log, entry.1 ≠ v) : said log v = [] := by
  simpa [said, List.filter_eq_nil_iff] using hOther

theorem said_note (log : List (Nat × ρ)) (v : Nat) (r : ρ) :
    said (log ++ [(v, r)]) v = said log v ++ [r] :=
  (said_append log _ v).trans (congrArg (said log v ++ ·) (said_map [r] v))

theorem said_note_of_ne {u : Nat} (hOther : u ≠ v) (r : ρ) : said (log ++ [(u, r)]) v = said log v := by
  have hNone : said [(u, r)] v = [] := said_eq_nil (by simpa using hOther)
  rw [said_append, hNone, List.append_nil]

/-- A log is made of what it holds of each task. -/
theorem perm_flatMap_said {tasks : List Nat} (hNodup : tasks.Nodup)
    (hTasks : ∀ entry ∈ log, entry.1 ∈ tasks) : (log.map Prod.snd).Perm (tasks.flatMap (said log)) := by
  induction tasks generalizing log with
  | nil =>
      obtain rfl := List.eq_nil_iff_forall_not_mem.mpr fun entry hMem => by cases hTasks entry hMem
      exact .refl _
  | cons v rest ih =>
      rw [List.nodup_cons] at hNodup
      let others := log.filter fun entry => !(entry.1 == v)
      have hRest : ∀ u ∈ rest, said others u = said log u := by
        intro u hMem
        rw [said, List.filter_filter]
        congr 1
        apply List.filter_congr
        rintro ⟨w, _⟩ _
        have hDiffer : u ≠ v := fun hSame => hNodup.1 (hSame ▸ hMem)
        by_cases hTask : w = u <;> simp [hTask, hDiffer]
      have hOthers : (others.map Prod.snd).Perm (rest.flatMap (said log)) := by
        rw [← List.flatMap_congr hRest]
        apply ih hNodup.2
        intro entry hMem
        obtain ⟨hEntry, hDiffer⟩ := List.mem_filter.mp hMem
        exact (List.mem_cons.mp (hTasks entry hEntry)).resolve_left (by simpa using hDiffer)
      have hSplit := (List.filter_append_perm (fun entry => entry.1 == v) log).symm.map Prod.snd
      rw [List.map_append] at hSplit
      exact hSplit.trans (hOthers.append_left _)

/-! ## Executions with their logs -/

/-- An execution that has led to a state, with the tasks stored and the records logged on the way. -/
inductive Plan.Logged (plan : Plan ε α) (notes : Nat → List ρ) :
    List Nat → State ε α → List (Nat × ρ) → Prop
  /-- Nobody has moved yet. -/
  | start : Logged plan notes [] plan.start []
  /-- A worker logs the next record of the task that it is at. -/
  | note {stored : List Nat} {s : State ε α} {log : List (Nat × ρ)} {i v : Nat} {r : ρ}
      {rest : List ρ} (hLogged : Logged plan notes stored s log)
      (hWorker : s.workers[i]? = some (.busy v)) (hNext : notes v = said log v ++ r :: rest) :
      Logged plan notes stored s (log ++ [(v, r)])
  /-- An actor makes one more move.  A worker has done its task only when all is said about it. -/
  | move {stored : List Nat} {s t : State ε α} {log : List (Nat × ρ)} {actor : Actor}
      (hLogged : Logged plan notes stored s log)
      (hSaid : ∀ i v, actor = .worker i → s.workers[i]? = some (.busy v) → said log v = notes v)
      (hStep : plan.step s actor = some t) : Logged plan notes (stored ++ s.storing actor) t log

/-- Without the log it is an execution like any other. -/
theorem Plan.Logged.execution (hLogged : plan.Logged notes stored s log) :
    plan.Execution stored s := by
  induction hLogged with
  | start => exact .start
  | note _ _ _ ih => exact ih
  | move _ _ hStep ih => exact .move ih hStep

/-! ## What a move does to the tasks -/

/-- A worker has taken the task. -/
def State.Taken (s : State ε α) (task : Nat) : Prop :=
  task ∈ s.done ∨ ∃ i : Nat, s.workers[i]? = some (.busy task)

/-- Only a worker that is at a task gets one done. -/
theorem Plan.Move.done_eq (hMove : plan.Move s actor t) :
    (∃ i v, actor = .worker i ∧ s.workers[i]? = some (.busy v) ∧ t.done = s.done ++ [v]) ∨
      ((∀ i v, actor = .worker i → s.workers[i]? ≠ some (.busy v)) ∧ t.done = s.done) := by
  have hLeader : ∀ i v, Actor.leader = .worker i → s.workers[i]? ≠ some (.busy v) := by
    intro i v hActor
    cases hActor
  have hOther : ∀ {i : Nat} {w : Worker ε α}, s.workers[i]? = some w → (∀ v, w ≠ .busy v) →
      ∀ j v, Actor.worker i = .worker j → s.workers[j]? ≠ some (.busy v) := by
    rintro i w hWorker hIdle j v hActor hBusy
    cases hActor
    exact hIdle v (Option.some.inj (hWorker.symm.trans hBusy))
  cases hMove with
  | close => exact .inr ⟨hLeader, rfl⟩
  | send => exact .inr ⟨hLeader, rfl⟩
  | finish => exact .inr ⟨hLeader, rfl⟩
  | store => exact .inr ⟨hLeader, rfl⟩
  | fail => exact .inr ⟨hLeader, rfl⟩
  | take hWorker => exact .inr ⟨hOther hWorker (by simp), rfl⟩
  | retire hWorker => exact .inr ⟨hOther hWorker (by simp), rfl⟩
  | work hWorker => exact .inl ⟨_, _, rfl, hWorker, rfl⟩
  | deliver hWorker => exact .inr ⟨hOther hWorker (by simp), rfl⟩
  | lose hWorker => exact .inr ⟨hOther hWorker (by simp), rfl⟩

/-- A worker that is at a task stays there until it is done. -/
theorem Plan.Move.taken (hMove : plan.Move s actor t) {i : Nat}
    (hBusy : s.workers[i]? = some (.busy v)) : t.Taken v := by
  have hStays : ∀ {s' : State ε α} {j : Nat} {w old : Worker ε α}, s'.workers = s.workers →
      s.workers[j]? = some old → j ≠ i → (s'.withWorker j w).Taken v := by
    intro s' j w old hSame hWorker hOther
    refine Or.inr ⟨i, ?_⟩
    rw [getElem?_withWorker (hSame ▸ hWorker), hSame, if_neg hOther]
    exact hBusy
  have hOther : ∀ {j : Nat} {old : Worker ε α}, s.workers[j]? = some old → (∀ u, old ≠ .busy u) →
      j ≠ i := by
    rintro j old hWorker hIdle rfl
    exact hIdle v (Option.some.inj (hWorker.symm.trans hBusy))
  cases hMove with
  | close => exact Or.inr ⟨i, hBusy⟩
  | send => exact Or.inr ⟨i, hBusy⟩
  | finish => exact Or.inr ⟨i, hBusy⟩
  | store => exact Or.inr ⟨i, hBusy⟩
  | fail => exact Or.inr ⟨i, hBusy⟩
  | take hWorker => exact hStays rfl hWorker (hOther hWorker (by simp))
  | retire hWorker => exact hStays rfl hWorker (hOther hWorker (by simp))
  | @work j u hWorker =>
      by_cases hSame : j = i
      · subst hSame
        cases Option.some.inj (hWorker.symm.trans hBusy)
        exact Or.inl (List.mem_append_right _ List.mem_cons_self)
      · exact hStays rfl hWorker hSame
  | deliver hWorker => exact hStays rfl hWorker (hOther hWorker (by simp))
  | lose hWorker => exact hStays rfl hWorker (hOther hWorker (by simp))

/-! ## What the log holds -/

namespace Plan.Logged

/-- A record belongs to its task. -/
theorem mem_notes (hLogged : plan.Logged notes stored s log) :
    ∀ entry ∈ log, entry.2 ∈ notes entry.1 := by
  induction hLogged with
  | start =>
      intro entry hMem
      cases hMem
  | note _ _ hNext ih =>
      intro entry hMem
      rcases List.mem_append.mp hMem with hBefore | hNew
      · exact ih entry hBefore
      · cases List.mem_singleton.mp hNew
        rw [hNext]
        exact List.mem_append_right _ List.mem_cons_self
  | move _ _ _ ih => exact ih

/-- Nothing is logged of a task that no worker has taken. -/
theorem taken (hLogged : plan.Logged notes stored s log) : ∀ entry ∈ log, s.Taken entry.1 := by
  induction hLogged with
  | start =>
      intro entry hMem
      cases hMem
  | note _ hWorker _ ih =>
      intro entry hMem
      rcases List.mem_append.mp hMem with hBefore | hNew
      · exact ih entry hBefore
      · cases List.mem_singleton.mp hNew
        exact Or.inr ⟨_, hWorker⟩
  | move _ _ hStep ih =>
      have hMove := (plan.step_eq_some_iff _ _ _).mp hStep
      intro entry hMem
      rcases ih entry hMem with hDone | ⟨i, hBusy⟩
      · rcases hMove.done_eq with ⟨_, _, _, _, hMore⟩ | ⟨_, hSame⟩
        · exact Or.inl (hMore ▸ List.mem_append_left _ hDone)
        · exact Or.inl (hSame ▸ hDone)
      · exact hMove.taken hBusy

/-- All is said about a task that is done. -/
theorem said_of_done (hLogged : plan.Logged notes stored s log) :
    ∀ v ∈ s.done, said log v = notes v := by
  induction hLogged with
  | start =>
      intro v hMem
      cases hMem
  | @note _ _ log _ u r rest _ _ hNext ih =>
      intro v hMem
      have hAll := ih v hMem
      by_cases hSame : u = v
      · subst hSame
        have hLength := congrArg List.length (hAll.trans hNext)
        rw [List.length_append, List.length_cons] at hLength
        omega
      · rw [said_note_of_ne hSame, hAll]
  | move _ hSaid hStep ih =>
      intro v hMem
      rcases ((plan.step_eq_some_iff _ _ _).mp hStep).done_eq with
        ⟨i, u, hActor, hWorker, hMore⟩ | ⟨_, hSame⟩
      · rw [hMore] at hMem
        rcases List.mem_append.mp hMem with hBefore | hNew
        · exact ih v hBefore
        · cases List.mem_singleton.mp hNew
          exact hSaid i _ hActor hWorker
      · exact ih v (hSame ▸ hMem)

/-- Once everybody is gone, the log holds the records of the tasks that were done. -/
theorem perm_done (hLogged : plan.Logged notes stored s log) (hCrew : 0 < plan.workers)
    (hFinal : s.final = true) : (log.map Prod.snd).Perm (s.done.flatMap notes) := by
  rw [State.final, Bool.and_eq_true] at hFinal
  have hConsistent := hLogged.execution.consistent hCrew
  rw [← List.flatMap_congr hLogged.said_of_done]
  refine perm_flatMap_said hConsistent.done_nodup ?_
  intro entry hMem
  refine (hLogged.taken entry hMem).resolve_right ?_
  rintro ⟨i, hBusy⟩
  cases deserted_iff.mp hFinal.2 i _ hBusy

end Plan.Logged

/-- When the leader has finished, every task is done. -/
theorem Plan.Consistent.done_perm (hConsistent : plan.Consistent stored s)
    (hLeader : s.leader = .finished) : s.done.Perm (List.range plan.tasks) := by
  refine (List.perm_ext_iff_of_nodup hConsistent.done_nodup List.nodup_range).mpr fun v => ?_
  rw [List.mem_range, ← List.count_pos_iff]
  constructor
  · intro hDone
    have hSent := hConsistent.accounted.sent v
    have hCount : 0 < (List.range s.sent).count v := by omega
    have hTask := List.mem_range.mp (List.count_pos_iff.mp hCount)
    exact Nat.lt_of_lt_of_le hTask hConsistent.phased.sent_le
  · intro hTask
    have hStored := List.count_pos_iff.mpr (hConsistent.mem_stored hLeader hTask)
    have hKept := hConsistent.accounted.done_ge v
    rw [State.kept] at hKept
    omega

/-- When the leader has finished, the log holds the records of all tasks. -/
theorem Plan.Logged.perm_range (hLogged : plan.Logged notes stored s log) (hCrew : 0 < plan.workers)
    (hFinal : s.final = true) (hLeader : s.leader = .finished) :
    (log.map Prod.snd).Perm ((List.range plan.tasks).flatMap notes) :=
  (hLogged.perm_done hCrew hFinal).trans
    (((hLogged.execution.consistent hCrew).done_perm hLeader).flatMap_right notes)

/-! ## Every execution has a log -/

/-- A worker that is at a task can log all that is left to say. -/
theorem Plan.Logged.note_all {i : Nat} {rest : List ρ} (hLogged : plan.Logged notes stored s log)
    (hWorker : s.workers[i]? = some (.busy v)) (hRest : notes v = said log v ++ rest) :
    plan.Logged notes stored s (log ++ rest.map (v, ·)) := by
  induction rest generalizing log with
  | nil => rwa [List.map_nil, List.append_nil]
  | cons r rest ih =>
      have hMore := ih (hLogged.note hWorker hRest) (by
        rw [said_note, List.append_assoc]
        exact hRest)
      rwa [List.append_assoc] at hMore

/-- A worker that is at a task has not done it yet. -/
theorem Plan.Consistent.not_mem_done (hConsistent : plan.Consistent stored s) {i : Nat}
    (hWorker : s.workers[i]? = some (.busy v)) : v ∉ s.done := by
  have hSent := hConsistent.accounted.sent v
  have hOnce := List.nodup_iff_count_le_one.mp (List.nodup_range (n := s.sent)) v
  have hBusy := le_crewSum (Worker.doing v) hWorker
  rw [Worker.doing, if_pos rfl] at hBusy
  rw [← List.count_eq_zero]
  omega

/-- In every execution the workers can log a task just before they have done it. -/
theorem Plan.Execution.logged (hExecution : plan.Execution stored s) (hCrew : 0 < plan.workers)
    (notes : Nat → List ρ) :
    plan.Logged notes stored s (s.done.flatMap fun v => (notes v).map (v, ·)) := by
  induction hExecution with
  | start => exact .start
  | @move stored s t actor hExecution hStep ih =>
      rcases ((plan.step_eq_some_iff s t actor).mp hStep).done_eq with
        ⟨i, v, rfl, hWorker, hDone⟩ | ⟨hIdle, hDone⟩
      · have hNone : said (s.done.flatMap fun v => (notes v).map (v, ·)) v = [] := by
          apply said_eq_nil
          rintro ⟨u, r⟩ hMem rfl
          obtain ⟨w, hBefore, hEntry⟩ := List.mem_flatMap.mp hMem
          obtain ⟨_, _, hEntry⟩ := List.mem_map.mp hEntry
          cases hEntry
          exact (hExecution.consistent hCrew).not_mem_done hWorker hBefore
        have hNotes := ih.note_all hWorker ((congrArg (· ++ notes v) hNone).trans (List.nil_append _)).symm
        rw [hDone, List.flatMap_append, List.flatMap_singleton]
        refine hNotes.move ?_ hStep
        intro j u hActor hBusy
        cases hActor
        cases Option.some.inj (hWorker.symm.trans hBusy)
        rw [said_append, hNone, said_map, List.nil_append]
      · rw [hDone]
        exact ih.move (fun i v hActor hBusy => absurd hBusy (hIdle i v hActor)) hStep

end StepSampling.Pool
