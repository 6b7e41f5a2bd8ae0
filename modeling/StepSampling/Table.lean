import StepSampling.Decimal.Reading
import StepSampling.Text.Pieces

/-!
# Weight tables

A weight table is text: one row of numbers a line, the numbers separated by white space, everything
from a `#` to the end of the line a comment.  Lines without a number give no row.  Reading stops at
the first word that is no number, and names the word and its line; lines are counted from one, and
lines without a number count.
-/

namespace StepSampling

/-- Why a text is no weight table. -/
inductive TableError where
  /-- A word that is no number, with its line. -/
  | badValue (line : Nat) (word : List Char)
  /-- There is no number at all. -/
  | noWeights
  deriving DecidableEq, Repr

/-- The text of the error. -/
def TableError.message : TableError → String
  | .badValue line word =>
    "line " ++ Decimal.natText line ++ ": invalid value '" ++ String.ofList word ++ "'"
  | .noWeights => "no weights found"

namespace Table

/-- The words of a line, its comment left out. -/
def wordsOfLine (line : List Char) : List (List Char) :=
  Text.words (line.takeWhile (· != '#'))

/-- The numbers of a line, or its first word that is none. -/
def readWords (number : Nat) : List (List Char) → Except TableError (List Single)
  | [] => .ok []
  | word :: rest =>
    match Binary.read? .single word with
    | none => .error (.badValue number word)
    | some x => (readWords number rest).map (x :: ·)

/-- The rows of the lines, the first of which has the given number. -/
def readLines (number : Nat) : List (List Char) → Except TableError (List (List Single))
  | [] => .ok []
  | line :: rest =>
    match readWords number (wordsOfLine line) with
    | .error e => .error e
    | .ok [] => readLines (number + 1) rest
    | .ok row => (readLines (number + 1) rest).map (row :: ·)

/-- The rows of a table given as characters. -/
def readChars (cs : List Char) : Except TableError (List (List Single)) :=
  match readLines 1 (Text.lines cs) with
  | .error e => .error e
  | .ok [] => .error .noWeights
  | .ok rows => .ok rows

/-- The rows of a table. -/
def read (text : String) : Except TableError (List (List Single)) := readChars text.toList

end Table

end StepSampling
