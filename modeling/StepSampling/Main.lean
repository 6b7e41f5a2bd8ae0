import StepSampling.Program

/-!
# The command line

Fetches the files, runs the program, and writes its output and its log.  The threshold of the log is
taken from the environment variable `STEP_SAMPLING_LOG`; without it only errors are shown.
-/

namespace StepSampling

/-- The threshold that a name stands for; `off` and unknown names show nothing. -/
def Level.ofName? : String → Option Level
  | "error" => some .error
  | "warn" => some .warn
  | "info" => some .info
  | "debug" => some .debug
  | _ => none

/-- The reason for which a file cannot be read. -/
def ReadFailure.ofError : IO.Error → ReadFailure
  | .noFileOrDirectory _ _ _ => .missing
  | .inappropriateType _ _ _ => .directory
  | e => .other (toString e)

namespace Program

/-- The contents of the files at the given paths. -/
def fetchFiles : List String → IO (List (String × Except ReadFailure ByteArray))
  | [] => return []
  | path :: rest => do
    let content ← try
        let bytes ← IO.FS.readBinFile path
        pure (.ok bytes)
      catch e => pure (.error (ReadFailure.ofError e))
    return (path, content) :: (← fetchFiles rest)

/-- The number of processors that the system lists, at least one. -/
def processors : IO Nat := do
  try
    let listing ← IO.FS.readFile "/proc/cpuinfo"
    return max 1 ((Text.lines listing.toList).filter ("processor".toList.isPrefixOf ·)).length
  catch _ => return 1

/-- Runs the program and writes what it leaves behind. -/
def execute (arguments : List String) : IO UInt32 := do
  let mut paths := []
  match Options.ofArguments arguments with
  | .ok o => paths := o.paths
  | .error (.misuse m) => IO.eprintln ("error: " ++ m.message)
  | .error _ => pure ()
  let contents ← fetchFiles paths
  let files : Files := fun path => (contents.lookup path).getD (.error .missing)
  let outcome := run (← processors) files arguments
  let level := match ← IO.getEnv "STEP_SAMPLING_LOG" with
    | some name => Level.ofName? name
    | none => some .error
  for r in Record.visible level outcome.block.records do
    IO.eprintln ("[" ++ r.level.label ++ "] " ++ r.text)
  IO.print outcome.block.output
  return outcome.code.toUInt32

end Program

end StepSampling

/-- Runs the program on the arguments of the command line. -/
def main (arguments : List String) : IO UInt32 := StepSampling.Program.execute arguments
