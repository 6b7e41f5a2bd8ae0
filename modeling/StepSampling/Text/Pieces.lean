import StepSampling.Text.WhiteSpace

/-!
# Cutting text into pieces

`pieces` cuts at every character of a class and drops these characters: a text with `k` of them has
`k + 1` pieces, some of which may be empty.  Lines are the pieces at line feeds, and words are the
non-empty pieces at white space.
-/

namespace StepSampling.Text

/-- The pieces between the characters of the class `cut`, empty ones included. -/
def pieces (cut : Char → Bool) : List Char → List (List Char)
  | [] => [[]]
  | c :: rest =>
    if cut c then [] :: pieces cut rest
    else
      match pieces cut rest with
      | [] => [[c]]
      | piece :: others => (c :: piece) :: others

/-- The lines of a text. -/
def lines (cs : List Char) : List (List Char) := pieces (· == '\n') cs

/-- The maximal runs of characters that are not white space. -/
def words (cs : List Char) : List (List Char) :=
  (pieces isWhiteSpace cs).filter (!·.isEmpty)

end StepSampling.Text
