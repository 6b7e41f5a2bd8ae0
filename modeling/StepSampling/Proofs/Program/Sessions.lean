import StepSampling.Proofs.Program.Works
import Mathlib.Data.List.Perm.Basic

/-!
# Sessions

A session works on the files one after another.  What has been written goes through the work on each
file, and a fault breaks the session off with an exit code of its own.

Where there are no faults a session is a choice of one block for each path, out of the blocks that the
work on its file can add.  So the sessions on some paths followed by others are those on the first
followed by those on the others.  `files_independent` says this together with how far two sessions on
the same paths agree, and with what a quiet session leaves out.
-/

namespace StepSampling.Program

/-- The work on the files at the given paths, from what has been written before it to the end. -/
inductive Session (o : Options) (processors : Nat) (files : Files) :
    List String → Block → Outcome → Prop
  /-- There is nothing left to work on. -/
  | finished (before : Block) : Session o processors files [] before ⟨0, before⟩
  /-- One file is done, with a report or without. -/
  | next {path : String} {rest : List String} {before after : Block} {outcome : Outcome}
      (hWorks : Works o processors files path before ⟨0, after⟩)
      (hRest : Session o processors files rest after outcome) :
      Session o processors files (path :: rest) before outcome
  /-- A fault ends the session. -/
  | broken {path : String} {rest : List String} {before after : Block}
      (hWorks : Works o processors files path before ⟨faultCode, after⟩) :
      Session o processors files (path :: rest) before ⟨faultCode, after⟩

/-- What working on the files at the given paths can leave. -/
def Runs (o : Options) (processors : Nat) (files : Files) (paths : List String)
    (outcome : Outcome) : Prop :=
  Session o processors files paths .empty outcome

variable {o : Options} {processors : Nat} {files : Files} {path : String} {paths : List String}
  {before x : Block} {outcome : Outcome}

/-! ## The run that is made -/

/-- The session of the run that is made, behind whatever has been written. -/
theorem session_filesOutcome (paths : List String) (before : Block) :
    Session o processors files paths before
      ((filesOutcome o processors files paths).behind before) := by
  induction paths generalizing before with
  | nil =>
      rw [filesOutcome, Outcome.behind, Block.append_empty]
      exact .finished before
  | cons path rest ih =>
      have hWorks := works_fileOutcome o processors files path
      rw [filesOutcome]
      generalize fileOutcome o processors files path = first at hWorks ⊢
      obtain ⟨code, block⟩ := first
      obtain rfl | rfl : code = 0 ∨ code = faultCode := hWorks.code_eq
      · refine .next (hWorks.of_empty before) ?_
        have hRest := ih (before.append block)
        rwa [← Outcome.behind_behind] at hRest
      · exact .broken (hWorks.of_empty before)

/-- The run that is made. -/
theorem runs_filesOutcome (o : Options) (processors : Nat) (files : Files) (paths : List String) :
    Runs o processors files paths (filesOutcome o processors files paths) := by
  have hSession : Session o processors files paths .empty _ := session_filesOutcome paths .empty
  rwa [Outcome.behind_empty] at hSession

/-! ## Sessions as choices of blocks -/

/-- Without a fault a session is a choice of one block for each path. -/
theorem session_iff (hFaultless : ∀ path, Faultless o processors files path) :
    Session o processors files paths before outcome ↔
      ∃ zs : List (String × Block), zs.map Prod.fst = paths ∧
        (∀ z ∈ zs, Works o processors files z.1 .empty ⟨0, z.2⟩) ∧
        outcome = ⟨0, before.append (Block.join (zs.map Prod.snd))⟩ := by
  constructor
  · intro hSession
    induction hSession with
    | finished before =>
        refine ⟨[], rfl, List.forall_mem_nil _, ?_⟩
        exact congrArg (Outcome.mk 0) (Block.append_empty before).symm
    | @next path rest before after outcome hWorks _ ih =>
        obtain ⟨x, rfl, hAll⟩ := hWorks.exists_block
        obtain ⟨zs, hPaths, hBlocks, hOutcome⟩ := ih
        have hFirst := hAll .empty
        rw [Block.empty_append] at hFirst
        refine ⟨(path, x) :: zs, congrArg (path :: ·) hPaths,
          List.forall_mem_cons.mpr ⟨hFirst, hBlocks⟩, ?_⟩
        rw [hOutcome, Block.append_assoc]
        rfl
    | broken hWorks => cases (hFaultless _).code_eq_zero hWorks
  · rintro ⟨zs, rfl, hBlocks, rfl⟩
    induction zs generalizing before with
    | nil =>
        show Session o processors files [] before ⟨0, before.append .empty⟩
        rw [Block.append_empty]
        exact .finished before
    | cons z rest ih =>
        obtain ⟨hFirst, hRest⟩ := List.forall_mem_cons.mp hBlocks
        refine .next (hFirst.of_empty before) ?_
        show Session o processors files (rest.map Prod.fst) (before.append z.2)
          ⟨0, before.append (z.2.append (Block.join (rest.map Prod.snd)))⟩
        rw [← Block.append_assoc]
        exact ih hRest

/-- On a single path a session is the work on its file. -/
theorem runs_singleton :
    Runs o processors files [path] ⟨0, x⟩ ↔ Works o processors files path .empty ⟨0, x⟩ := by
  constructor
  · intro hRuns
    cases hRuns with
    | next hWorks hRest =>
        cases hRest
        exact hWorks
  · exact fun hWorks => .next hWorks (.finished x)

/-- The blocks are those of their paths: a run on the path alone leaves the block, where no file has
another content than the one at the path. -/
def Entries (o : Options) (processors : Nat) (files : Files) (zs : List (String × Block)) : Prop :=
  ∀ z ∈ zs, Runs o processors (fun _ => files z.1) [z.1] ⟨0, z.2⟩

theorem entries_iff {zs : List (String × Block)} :
    Entries o processors files zs ↔ ∀ z ∈ zs, Works o processors files z.1 .empty ⟨0, z.2⟩ := by
  refine forall₂_congr fun z _ => ?_
  rw [runs_singleton]
  exact ⟨fun hWorks => hWorks.of_content rfl, fun hWorks => hWorks.of_content rfl⟩

/-- A run leaves one block for each path, in the order of the paths. -/
theorem runs_iff (hFaultless : ∀ path, Faultless o processors files path) :
    Runs o processors files paths outcome ↔
      ∃ zs : List (String × Block), zs.map Prod.fst = paths ∧ Entries o processors files zs ∧
        outcome = ⟨0, Block.join (zs.map Prod.snd)⟩ := by
  rw [Runs, session_iff hFaultless]
  simp only [entries_iff, Block.empty_append]

/-- The runs on some paths followed by others are the runs on the first followed by the runs on the
others. -/
theorem runs_append (hFaultless : ∀ path, Faultless o processors files path)
    {more : List String} :
    Runs o processors files (paths ++ more) outcome ↔
      ∃ a b, Runs o processors files paths a ∧ Runs o processors files more b ∧
        outcome = ⟨0, a.block.append b.block⟩ := by
  simp only [runs_iff hFaultless]
  constructor
  · rintro ⟨zs, hPaths, hEntries, rfl⟩
    obtain ⟨xs, ys, rfl, hFirst, hSecond⟩ := List.map_eq_append_iff.mp hPaths
    obtain ⟨hBefore, hBehind⟩ := List.forall_mem_append.mp hEntries
    refine ⟨_, _, ⟨xs, hFirst, hBefore, rfl⟩, ⟨ys, hSecond, hBehind, rfl⟩, ?_⟩
    rw [List.map_append, Block.join_append]
  · rintro ⟨_, _, ⟨xs, rfl, hBefore, rfl⟩, ⟨ys, rfl, hBehind, rfl⟩, rfl⟩
    refine ⟨xs ++ ys, List.map_append, List.forall_mem_append.mpr ⟨hBefore, hBehind⟩, ?_⟩
    rw [List.map_append, Block.join_append]

/-- When the paths change their order, the blocks of a run can go along. -/
theorem runs_perm (hFaultless : ∀ path, Faultless o processors files path)
    {others : List String} (hPerm : paths.Perm others)
    (hRuns : Runs o processors files paths outcome) :
    ∃ zs ws : List (String × Block), zs.map Prod.fst = paths ∧ ws.map Prod.fst = others ∧
      zs.Perm ws ∧ Entries o processors files zs ∧ outcome = ⟨0, Block.join (zs.map Prod.snd)⟩ ∧
      Runs o processors files others ⟨0, Block.join (ws.map Prod.snd)⟩ := by
  obtain ⟨zs, rfl, hEntries, hOutcome⟩ := (runs_iff hFaultless).mp hRuns
  have hLift : Relation.Comp (· = List.map Prod.fst ·) List.Perm others zs := by
    rw [List.eq_map_comp_perm]
    exact hPerm.symm
  obtain ⟨ws, hOthers, hSame⟩ := hLift
  refine ⟨zs, ws, rfl, hOthers.symm, hSame.symm, hEntries, hOutcome, ?_⟩
  exact (runs_iff hFaultless).mpr
    ⟨ws, hOthers.symm, fun z hMem => hEntries z (hSame.mem_iff.mp hMem), rfl⟩

/-! ## How far two runs agree -/

/-- Blocks of the same paths have the same output together, and they are logged alike. -/
theorem join_alike {zs : List (String × Block)}
    (hBlocks : ∀ z ∈ zs, Works o processors files z.1 .empty ⟨0, z.2⟩) :
    (Block.join (zs.map Prod.snd)).output =
        (filesOutcome o processors files (zs.map Prod.fst)).block.output ∧
      Record.Alike ((o.crew processors).1 ≤ 1)
        (∀ path ∈ zs.map Prod.fst, Reported o processors files path)
        (Block.join (zs.map Prod.snd)).records
        (filesOutcome o processors files (zs.map Prod.fst)).block.records := by
  induction zs with
  | nil => exact ⟨rfl, .refl _⟩
  | cons z rest ih =>
      obtain ⟨hFirst, hRest⟩ := List.forall_mem_cons.mp hBlocks
      obtain ⟨hCode, hOutput, hRecords⟩ := hFirst.alike
      obtain ⟨hOutputs, hRecordsOfRest⟩ := ih hRest
      rw [List.map_cons, List.map_cons, filesOutcome, if_pos hCode]
      refine ⟨congrArg₂ (· ++ ·) hOutput hOutputs, ?_⟩
      refine (hRecords.weaken ?_).append (hRecordsOfRest.weaken ?_)
      · exact fun hReported => hReported z.1 List.mem_cons_self
      · exact fun hReported path hMem => hReported path (List.mem_cons_of_mem z.1 hMem)

/-- All runs on the same paths end with the code zero and the same output, and they are logged alike.
-/
theorem Runs.alike (hFaultless : ∀ path, Faultless o processors files path)
    (hRuns : Runs o processors files paths outcome) :
    outcome.code = 0 ∧ outcome.block.output = (filesOutcome o processors files paths).block.output ∧
      Record.Alike ((o.crew processors).1 ≤ 1) (∀ path ∈ paths, Reported o processors files path)
        outcome.block.records (filesOutcome o processors files paths).block.records := by
  obtain ⟨zs, rfl, hEntries, rfl⟩ := (runs_iff hFaultless).mp hRuns
  exact ⟨rfl, join_alike (entries_iff.mp hEntries)⟩

/-! ## Quiet runs -/

/-- Quiet sessions are the others without their output. -/
theorem session_quiet_iff (before : Block) :
    Session { o with quiet := true } processors files paths before.muted outcome ↔
      ∃ loud, Session { o with quiet := false } processors files paths before loud ∧
        outcome = loud.muted := by
  induction paths generalizing before with
  | nil =>
      constructor
      · intro hSession
        cases hSession
        exact ⟨_, .finished before, rfl⟩
      · rintro ⟨loud, hSession, rfl⟩
        cases hSession
        exact .finished before.muted
  | cons path rest ih =>
      constructor
      · intro hSession
        cases hSession with
        | next hWorks hRest =>
            obtain ⟨after, hLoud, rfl⟩ := hWorks.exists_loud
            obtain ⟨loud, hSession, hOutcome⟩ := (ih after).mp hRest
            exact ⟨loud, .next hLoud hSession, hOutcome⟩
        | broken hWorks =>
            obtain ⟨after, hLoud, rfl⟩ := hWorks.exists_loud
            exact ⟨_, .broken hLoud, rfl⟩
      · rintro ⟨loud, hSession, rfl⟩
        cases hSession with
        | next hWorks hRest => exact .next hWorks.muted ((ih _).mpr ⟨loud, hRest, rfl⟩)
        | broken hWorks => exact .broken hWorks.muted

/-! ## Independence -/

/-- **Files do not influence each other.**  Let the sizes of the files be words.

* One of the runs on some paths is the run that is made; all of them end with the code zero and with
  its output.  Their logs are alike: they differ in details at most, which a pool of workers logs in
  the order of its execution, and not at all without a pool.
* The runs on some paths followed by others leave what a run on the first and a run on the others
  leave, one after the other, and nothing else.
* A run leaves one block for each path.  The blocks that a path can have are those of the runs on it
  alone, and no other file has a part in them.
* When the paths change their order, every run has a run that leaves the same blocks in that order.
* The quiet runs leave the records of the others and no output. -/
theorem files_independent (processors : Nat) (o : Options) {files : Files}
    (hSizes : ∀ path bytes, files path = .ok bytes → bytes.size < 2 ^ 64) :
    (∀ ps, Runs o processors files ps (filesOutcome o processors files ps)) ∧
    (∀ ps r, Runs o processors files ps r →
      r.code = 0 ∧ r.block.output = (filesOutcome o processors files ps).block.output ∧
        Record.Alike ((o.crew processors).1 ≤ 1) (∀ path ∈ ps, Reported o processors files path)
          r.block.records (filesOutcome o processors files ps).block.records) ∧
    (∀ ps qs r, Runs o processors files (ps ++ qs) r ↔
      ∃ a b, Runs o processors files ps a ∧ Runs o processors files qs b ∧
        r = ⟨0, a.block.append b.block⟩) ∧
    (∀ ps r, Runs o processors files ps r ↔
      ∃ zs : List (String × Block), zs.map Prod.fst = ps ∧ Entries o processors files zs ∧
        r = ⟨0, Block.join (zs.map Prod.snd)⟩) ∧
    (∀ ps qs r, ps.Perm qs → Runs o processors files ps r →
      ∃ zs ws : List (String × Block), zs.map Prod.fst = ps ∧ ws.map Prod.fst = qs ∧ zs.Perm ws ∧
        Entries o processors files zs ∧ r = ⟨0, Block.join (zs.map Prod.snd)⟩ ∧
        Runs o processors files qs ⟨0, Block.join (ws.map Prod.snd)⟩) ∧
    (∀ ps r, Runs { o with quiet := true } processors files ps r ↔
      ∃ loud, Runs { o with quiet := false } processors files ps loud ∧
        r = ⟨loud.code, ⟨"", loud.block.records⟩⟩) := by
  have hFaultless : ∀ path, Faultless o processors files path := fun path =>
    faultless_of_size fun bytes hContent => hSizes path bytes hContent
  refine ⟨runs_filesOutcome o processors files, ?_, ?_, ?_, ?_, ?_⟩
  · exact fun ps r hRuns => hRuns.alike hFaultless
  · exact fun ps qs r => runs_append hFaultless
  · exact fun ps r => runs_iff hFaultless
  · exact fun ps qs r hPerm hRuns => runs_perm hFaultless hPerm hRuns
  · exact fun ps r => session_quiet_iff .empty

/-- A table of two rows, built by three workers, before and after a file that is missing. -/
theorem files_independent_repeated :
    ∃ files : Files,
      files "a" = .ok ⟨#[0x31, 0x20, 0x33, 0x0a, 0x30, 0x20, 0x30, 0x0a]⟩ ∧
      files "b" = .error .missing ∧
      (∀ path bytes, files path = .ok bytes → bytes.size < 2 ^ 64) ∧
      (Options.crew ⟨2, 0, 3, false, []⟩ 4).1 = 3 ∧
      (∀ r, Runs ⟨2, 0, 3, false, []⟩ 4 files ["a", "b", "a"] r ↔
        ∃ x y, Runs ⟨2, 0, 3, false, []⟩ 4 files ["a", "b"] x ∧
          Runs ⟨2, 0, 3, false, []⟩ 4 files ["a"] y ∧ r = ⟨0, x.block.append y.block⟩) ∧
      Runs ⟨2, 0, 3, false, []⟩ 4 files ["a", "b"]
        (filesOutcome ⟨2, 0, 3, false, []⟩ 4 files ["a", "b"]) ∧
      ∀ r, Runs ⟨2, 0, 3, true, []⟩ 4 files ["a", "b"] r → r.block.output = "" := by
  let files : Files := fun path =>
    if path = "a" then .ok ⟨#[0x31, 0x20, 0x33, 0x0a, 0x30, 0x20, 0x30, 0x0a]⟩ else .error .missing
  have hSizes : ∀ path bytes, files path = .ok bytes → bytes.size < 2 ^ 64 := by
    intro path bytes hContent
    by_cases hPath : path = "a"
    · rw [show files path = _ from if_pos hPath] at hContent
      cases hContent
      decide
    · rw [show files path = _ from if_neg hPath] at hContent
      cases hContent
  obtain ⟨hMade, _, hAppend, _, _, hQuiet⟩ := files_independent 4 ⟨2, 0, 3, false, []⟩ hSizes
  refine ⟨files, rfl, rfl, hSizes, rfl, hAppend ["a", "b"] ["a"], hMade ["a", "b"], ?_⟩
  intro r hRuns
  obtain ⟨loud, _, rfl⟩ := (hQuiet ["a", "b"] r).mp hRuns
  rfl

end StepSampling.Program
