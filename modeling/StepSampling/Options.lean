import StepSampling.Decimal.Reading
import StepSampling.Record

/-!
# Options

The arguments of the program: three settings with a value, one flag, and the paths of the files.

Arguments are read from left to right.  A setting without an attached value waits for the next
argument, and its value is only judged when the reading goes on to another setting, a flag or a
path, or ends: this is when a missing value, a repeated setting or a value that is no number is
found.  An unknown argument, and a value attached to a flag, are found at once.  The first finding
wins; only a missing path is found last.
-/

namespace StepSampling

/-- The settings that take a value. -/
inductive Setting where
  /-- How many samples are drawn. -/
  | samples
  /-- The seed of the generator. -/
  | seed
  /-- How many workers build a grid density. -/
  | threads
  deriving DecidableEq, Repr

/-- What is wrong with the arguments. -/
inductive Misuse where
  /-- No path is given. -/
  | missingPath
  /-- There is no such setting or flag. -/
  | unknownArgument
  /-- A value is no number of the range. -/
  | badValue
  /-- A setting has no value. -/
  | missingValue
  /-- A setting or the flag is given twice. -/
  | repeated
  /-- A flag is given a value. -/
  | unexpectedValue
  deriving DecidableEq, Repr

/-- What is wrong, in words. -/
def Misuse.message : Misuse → String
  | .missingPath => "no file is given"
  | .unknownArgument => "there is no such option"
  | .badValue => "a value is not a number of the range"
  | .missingValue => "an option needs a value"
  | .repeated => "an option is given twice"
  | .unexpectedValue => "an option takes no value"

/-- Why the arguments do not lead to a run. -/
inductive Halt where
  /-- The help text is asked for. -/
  | help
  /-- The version is asked for. -/
  | version
  /-- The arguments are wrong. -/
  | misuse (m : Misuse)
  deriving DecidableEq, Repr

/-- The options of a run. -/
structure Options where
  /-- How many samples are drawn for each file. -/
  samples : Nat
  /-- The seed of the generator. -/
  seed : UInt64
  /-- How many workers are asked for. -/
  threads : Nat
  /-- Whether reports are left out. -/
  quiet : Bool
  /-- The files, in the order given. -/
  paths : List String
  deriving DecidableEq, Repr

namespace Options

/-! ## Values -/

/-- Reads a 64-bit number: digits, possibly behind a plus sign. -/
def readWord? (cs : List Char) : Option Nat :=
  let body := match cs with
    | '+' :: rest => rest
    | _ => cs
  if body = [] ∨ !body.all Decimal.isDigit then none
  else
    let n := Decimal.ofDigits body
    if n < UInt64.size then some n else none

/-! ## The reader -/

/-- What has been read so far. -/
structure Reader where
  /-- The number of samples, once given. -/
  samples : Option Nat
  /-- The seed, once given. -/
  seed : Option Nat
  /-- The number of workers, once given. -/
  threads : Option Nat
  /-- Whether the flag was given. -/
  quiet : Bool
  /-- The paths, in the order given. -/
  paths : List String
  /-- A setting that is not judged yet, with its value if that has been read. -/
  pending : Option (Setting × Option (List Char))
  deriving DecidableEq, Repr

namespace Reader

/-- The reader before the first argument. -/
def start : Reader := ⟨none, none, none, false, [], none⟩

/-- The value of a setting. -/
def get? (r : Reader) : Setting → Option Nat
  | .samples => r.samples
  | .seed => r.seed
  | .threads => r.threads

/-- Stores the value of a setting. -/
def set (r : Reader) (n : Nat) : Setting → Reader
  | .samples => { r with samples := some n }
  | .seed => { r with seed := some n }
  | .threads => { r with threads := some n }

/-- Gives a setting its value. -/
def assign (r : Reader) (setting : Setting) (value : List Char) : Except Halt Reader :=
  if (r.get? setting).isSome then .error (.misuse .repeated)
  else
    match readWord? value with
    | none => .error (.misuse .badValue)
    | some n => .ok (r.set n setting)

/-- Judges the pending setting. -/
def settle (r : Reader) : Except Halt Reader :=
  match r.pending with
  | none => .ok r
  | some (_, none) => .error (.misuse .missingValue)
  | some (setting, some value) => assign { r with pending := none } setting value

/-- Takes a setting, with an attached value or waiting for one. -/
def takeSetting (r : Reader) (setting : Setting) (attached : Option (List Char)) :
    Except Halt Reader := do
  let r ← r.settle
  match attached with
  | some value => r.assign setting value
  | none => .ok { r with pending := some (setting, none) }

/-- Takes the flag. -/
def takeQuiet (r : Reader) : Except Halt Reader := do
  let r ← r.settle
  if r.quiet then .error (.misuse .repeated) else .ok { r with quiet := true }

/-- Takes a request for the help text or the version. -/
def takeRequest (r : Reader) (halt : Halt) : Except Halt Reader := do
  let _ ← r.settle
  .error halt

/-- Takes a path. -/
def takePath (r : Reader) (path : String) : Except Halt Reader := do
  let r ← r.settle
  .ok { r with paths := r.paths ++ [path] }

/-- Takes an argument that is neither a setting nor a flag: the value that a setting waits for, or
else a path. -/
def takePlain (r : Reader) (argument : String) : Except Halt Reader :=
  match r.pending with
  | some (setting, none) => .ok { r with pending := some (setting, some argument.toList) }
  | _ => r.takePath argument

end Reader

/-! ## Names -/

/-- What a name stands for. -/
inductive Name where
  /-- A setting. -/
  | setting (s : Setting)
  /-- The flag that leaves out reports. -/
  | quiet
  /-- The request for the help text. -/
  | help
  /-- The request for the version. -/
  | version
  deriving DecidableEq, Repr

/-- The meaning of a long name. -/
def Name.ofLong? (name : String) : Option Name :=
  match name with
  | "samples" => some (.setting .samples)
  | "seed" => some (.setting .seed)
  | "nthreads" => some (.setting .threads)
  | "quiet" => some .quiet
  | "help" => some .help
  | "version" => some .version
  | _ => none

/-- The meaning of a short name. -/
def Name.ofShort? (c : Char) : Option Name :=
  match c with
  | 'n' => some (.setting .samples)
  | 's' => some (.setting .seed)
  | 't' => some (.setting .threads)
  | 'h' => some .help
  | 'V' => some .version
  | _ => none

/-! ## Arguments -/

/-- The forms of an argument. -/
inductive Argument where
  /-- The mark behind which all arguments are paths. -/
  | terminator
  /-- A long name, with the text behind its equals sign. -/
  | long (name : List Char) (attached : Option (List Char))
  /-- A short name, with the text behind it. -/
  | short (name : Char) (attached : List Char)
  /-- Anything else. -/
  | plain
  deriving DecidableEq, Repr

/-- Splits at the first equals sign. -/
def splitEquals (cs : List Char) : List Char × Option (List Char) :=
  match cs.dropWhile (· != '=') with
  | [] => (cs, none)
  | _ :: rest => (cs.takeWhile (· != '='), some rest)

/-- The form of an argument. -/
def Argument.ofChars : List Char → Argument
  | ['-', '-'] => .terminator
  | '-' :: '-' :: rest => .long (splitEquals rest).1 (splitEquals rest).2
  | '-' :: c :: rest => .short c rest
  | _ => .plain

/-- The text behind a short name as the value of a setting; one equals sign is passed over. -/
def shortValue : List Char → Option (List Char)
  | [] => none
  | '=' :: rest => some rest
  | cs => some cs

namespace Reader

/-- Takes a long name. -/
def takeLong (r : Reader) (name : List Char) (attached : Option (List Char)) :
    Except Halt Reader :=
  match Name.ofLong? (String.ofList name), attached with
  | none, _ => .error (.misuse .unknownArgument)
  | some (.setting setting), _ => r.takeSetting setting attached
  | some _, some _ => .error (.misuse .unexpectedValue)
  | some .quiet, none => r.takeQuiet
  | some .help, none => r.takeRequest .help
  | some .version, none => r.takeRequest .version

/-- Takes a short name. -/
def takeShort (r : Reader) (name : Char) (attached : List Char) : Except Halt Reader :=
  match Name.ofShort? name with
  | none => .error (.misuse .unknownArgument)
  | some (.setting setting) => r.takeSetting setting (shortValue attached)
  | some .quiet => r.takeQuiet
  | some .help => r.takeRequest .help
  | some .version => r.takeRequest .version

/-- Takes the arguments behind the terminator. -/
def takePaths (r : Reader) : List String → Except Halt Reader
  | [] => .ok r
  | path :: rest => do
    let r ← r.takePath path
    r.takePaths rest

/-- Takes the arguments one by one. -/
def takeAll (r : Reader) : List String → Except Halt Reader
  | [] => .ok r
  | argument :: rest =>
    match Argument.ofChars argument.toList with
    | .terminator => r.takePaths rest
    | .long name attached => do
      let r ← r.takeLong name attached
      r.takeAll rest
    | .short name attached => do
      let r ← r.takeShort name attached
      r.takeAll rest
    | .plain => do
      let r ← r.takePlain argument
      r.takeAll rest

end Reader

/-- The number of samples that is drawn unless told otherwise. -/
def defaultSamples : Nat := 100000

/-- Reads the arguments of the program. -/
def ofArguments (arguments : List String) : Except Halt Options := do
  let r ← Reader.start.takeAll arguments
  let r ← r.settle
  if r.paths = [] then .error (.misuse .missingPath)
  else
    return {
      samples := r.samples.getD defaultSamples
      seed := (r.seed.getD 0).toUInt64
      threads := r.threads.getD 1
      quiet := r.quiet
      paths := r.paths }

/-! ## Workers -/

/-- The number of workers to use on a machine with the given number of processors, and what is
logged when it is not the number asked for. -/
def crew (o : Options) (processors : Nat) : Nat × List Record :=
  if o.threads = 0 then (1, [⟨.warn, "Invalid nthreads"⟩])
  else if processors < o.threads then
    (processors, [⟨.warn, "Num threads > max logical CPUs " ++ Decimal.natText processors⟩])
  else (o.threads, [])

end Options

end StepSampling
