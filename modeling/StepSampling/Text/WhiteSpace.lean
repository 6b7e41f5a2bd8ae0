/-!
# White space

The characters with the Unicode property `White_Space`, as the ranges of the standard.  Format
characters that merely look blank (zero-width space, byte order mark) and the separators of the
information group are not among them.
-/

namespace StepSampling.Text

/-- The ranges of code points with the property, in increasing order, ends included. -/
def whiteSpaceRanges : List (Nat × Nat) :=
  [(0x0009, 0x000D), (0x0020, 0x0020), (0x0085, 0x0085), (0x00A0, 0x00A0), (0x1680, 0x1680),
    (0x2000, 0x200A), (0x2028, 0x2029), (0x202F, 0x202F), (0x205F, 0x205F), (0x3000, 0x3000)]

/-- Whether the character is white space. -/
def isWhiteSpace (c : Char) : Bool :=
  whiteSpaceRanges.any fun (first, last) => first ≤ c.toNat && c.toNat ≤ last

end StepSampling.Text
