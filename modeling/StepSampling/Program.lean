import StepSampling.Options
import StepSampling.Survey
import StepSampling.Table

/-!
# The program

A run reads the options and then works on the files one after another.  The work on a file makes a
block of output and log records from the path, the content of the file and the options, and the run
appends the blocks in the order of the paths.  Each file gets a fresh generator.  Where a pool builds
the rows of a grid, the records are those of the execution that is run.

A file whose table cannot be read or is refused is reported in the log, and the run goes on.  A fault
would end it.
-/

namespace StepSampling

/-- Why the content of a file cannot be had. -/
inductive ReadFailure where
  /-- There is no such file. -/
  | missing
  /-- The path leads to a directory. -/
  | directory
  /-- The content is not UTF-8. -/
  | notText
  /-- The system gives another reason. -/
  | other (reason : String)
  deriving DecidableEq, Repr

/-- The reason in words. -/
def ReadFailure.message : ReadFailure → String
  | .missing => "No such file or directory (os error 2)"
  | .directory => "Is a directory (os error 21)"
  | .notText => "stream did not contain valid UTF-8"
  | .other reason => reason

/-- Where the content of files comes from. -/
abbrev Files := String → Except ReadFailure ByteArray

namespace Program

/-- The output and the log records of a part of a run. -/
structure Block where
  /-- What is written to the standard output. -/
  output : String
  /-- What is logged. -/
  records : List Record
  deriving DecidableEq, Repr

/-- The block without output and records. -/
def Block.empty : Block := ⟨"", []⟩

/-- One block after another. -/
def Block.append (a b : Block) : Block := ⟨a.output ++ b.output, a.records ++ b.records⟩

/-- What a run leaves behind. -/
structure Outcome where
  /-- The exit code. -/
  code : Nat
  /-- The output and the log records. -/
  block : Block
  deriving DecidableEq, Repr

/-- The outcome of what is done after a block has been written. -/
def Outcome.behind (b : Block) (r : Outcome) : Outcome := ⟨r.code, b.append r.block⟩

/-- The exit code of a run that a fault has broken off. -/
def faultCode : Nat := 101

/-- The table at a path, or the text of an error. -/
def readTable (files : Files) (path : String) : Except String (List (List Single)) :=
  let unreadable := fun (f : ReadFailure) => "Unable to read '" ++ path ++ "': " ++ f.message
  match files path with
  | .error f => .error (unreadable f)
  | .ok bytes =>
    match String.fromUTF8? bytes with
    | none => .error (unreadable .notText)
    | some text => (Table.read text).mapError fun e => path ++ ": " ++ e.message

/-- Surveys a table: a single row as a step density, several rows as a grid density. -/
def survey (o : Options) (processors : Nat) (rows : List (List Single)) :
    Except SurveyError Report × List Record :=
  let g := Generator.ofSeed o.seed
  match rows with
  | [weights] => ((Survey.row weights o.samples g).1, Survey.rowRecords weights)
  | _ =>
    let (threads, warnings) := o.crew processors
    ((Survey.table rows o.samples threads g).1, warnings ++ Survey.tableRecords rows threads)

/-- The record of a table that has been read. -/
def readRecord (path : String) (rows : List (List Single)) : Record :=
  ⟨.info, "Read weight table " ++ path ++ " (" ++ Decimal.natText rows.length ++ " rows)"⟩

/-- The record of a report. -/
def reportRecord (path : String) (report : Report) : Record :=
  ⟨.info, path ++ ": max deviation = " ++ report.maxDeviation.text⟩

/-- The output of a report with the given text. -/
def reportOutput (path text : String) : String := path ++ ": " ++ text ++ "\n"

/-- What a report leaves. -/
def reportOutcome (quiet : Bool) (path : String) (report : Report) : Outcome :=
  if quiet then ⟨0, ⟨"", [reportRecord path report]⟩⟩
  else
    match report.text with
    | .error _ => ⟨faultCode, ⟨"", [reportRecord path report]⟩⟩
    | .ok text => ⟨0, ⟨reportOutput path text, [reportRecord path report]⟩⟩

/-- What a table leaves, from what its survey gives and logs. -/
def tableOutcome (quiet : Bool) (path : String) (rows : List (List Single)) :
    Except SurveyError Report × List Record → Outcome
  | (.error (.fault _), records) => ⟨faultCode, ⟨"", readRecord path rows :: records⟩⟩
  | (.error e, records) => ⟨0, ⟨"", readRecord path rows :: records ++ [⟨.error, e.message⟩]⟩⟩
  | (.ok report, records) =>
    (reportOutcome quiet path report).behind ⟨"", readRecord path rows :: records⟩

/-- What the work on a file leaves. -/
def fileOutcome (o : Options) (processors : Nat) (files : Files) (path : String) : Outcome :=
  match readTable files path with
  | .error message => ⟨0, ⟨"", [⟨.error, message⟩]⟩⟩
  | .ok rows => tableOutcome o.quiet path rows (survey o processors rows)

/-- What the work on the files leaves: their blocks in order, up to a fault. -/
def filesOutcome (o : Options) (processors : Nat) (files : Files) : List String → Outcome
  | [] => ⟨0, .empty⟩
  | path :: rest =>
    let first := fileOutcome o processors files path
    if first.code = 0 then (filesOutcome o processors files rest).behind first.block else first

/-- The version of the program. -/
def versionText : String := "piecewise-stats 0.0.1\n"

/-- The help text of the program. -/
def helpText : String :=
  "Draws samples from piecewise-constant distributions built from weight tables and compares the " ++
  "empirical frequencies with the expected PDFs\n\n" ++
  "Usage: piecewise-stats [OPTIONS] <PATHS>...\n\n" ++
  "Arguments:\n" ++
  "  <PATHS>...  Weight table files\n\n" ++
  "Options:\n" ++
  "  -n, --samples <NUM>   Number of samples to draw per distribution. [default: 100000]\n" ++
  "  -s, --seed <NUM>      Sequence index for the random number generator. [default: 0]\n" ++
  "  -t, --nthreads <NUM>  Use specified number of threads for building 2D distributions. " ++
  "[default: 1]\n" ++
  "      --quiet           Suppress all text output other than error messages.\n" ++
  "  -h, --help            Print help\n" ++
  "  -V, --version         Print version\n"

/-- The exit code for wrong arguments. -/
def misuseCode : Nat := 2

/-- Runs the program. -/
def run (processors : Nat) (files : Files) (arguments : List String) : Outcome :=
  match Options.ofArguments arguments with
  | .error .help => ⟨0, ⟨helpText, []⟩⟩
  | .error .version => ⟨0, ⟨versionText, []⟩⟩
  | .error (.misuse _) => ⟨misuseCode, .empty⟩
  | .ok o => filesOutcome o processors files o.paths

end Program

end StepSampling
