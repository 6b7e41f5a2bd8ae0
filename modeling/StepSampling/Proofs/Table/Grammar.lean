import Mathlib.Data.List.Forall2
import Mathlib.Data.List.TakeWhile
import StepSampling.Proofs.Table

/-!
# The grammar of tables

What the lines of a text are, what a comment leaves of a line and what its words are is said here by
relations that do not search: the lines joined by line feeds are the text, a comment starts at the
first `#`, and a word is a run of characters between white space.  Each relation has exactly one
solution, the one that reading cuts out, so the tokens of a text are defined apart from the reader.

Reading then has three outcomes, which exclude each other and leave no text out: the numbers of the
lines that have tokens, the first token that is no number, or no token at all.
-/

namespace StepSampling

namespace Text

/-! ## Lines -/

/-- The lines of a text: joined by line feeds they are the text, and none holds a line feed. -/
structure IsLines (cs : List Char) (ls : List (List Char)) : Prop where
  nonempty : ls ≠ []
  joined : ['\n'].intercalate ls = cs
  unbroken : ∀ line ∈ ls, '\n' ∉ line

theorem pieces_eq_splitOnP (cut : Char → Bool) (cs : List Char) :
    pieces cut cs = cs.splitOnP cut := by
  induction cs with
  | nil => rw [pieces, List.splitOnP_nil]
  | cons c rest ih =>
      rw [pieces, List.splitOnP_cons_eq_if_modifyHead, ih]
      split
      · rfl
      · cases hRest : rest.splitOnP cut with
        | nil => exact absurd hRest (List.splitOnP_ne_nil cut rest)
        | cons piece others => rfl

theorem lines_eq_splitOn (cs : List Char) : lines cs = cs.splitOn '\n' := by
  rw [lines, pieces_eq_splitOnP, List.splitOn_eq_splitOnP]

/-- Every text has lines, and only one way to be cut into them. -/
theorem isLines_iff {cs : List Char} {ls : List (List Char)} : IsLines cs ls ↔ ls = lines cs := by
  rw [lines_eq_splitOn]
  constructor
  · rintro ⟨hSome, rfl, hUnbroken⟩
    exact (List.splitOn_intercalate '\n' hUnbroken hSome).symm
  · rintro rfl
    refine ⟨List.splitOn_ne_nil '\n' cs, List.intercalate_splitOn '\n', ?_⟩
    intro line hLine hBreak
    rw [← lines_eq_splitOn] at hLine
    have hKept : '\n' ∈ (lines cs).flatten := List.mem_flatten_of_mem hLine hBreak
    rw [lines, flatten_pieces] at hKept
    simpa using (List.mem_filter.mp hKept).2

/-- A text without line feeds is one line. -/
theorem lines_of_unbroken {line : List Char} (hUnbroken : '\n' ∉ line) : lines line = [line] :=
  (isLines_iff.mp ⟨List.cons_ne_nil line [], by simp, by simpa using hUnbroken⟩).symm

/-- The first line feed ends the first line. -/
theorem lines_append {line : List Char} (hUnbroken : '\n' ∉ line) (rest : List Char) :
    lines (line ++ '\n' :: rest) = line :: lines rest := by
  have hFirst := lines_of_unbroken hUnbroken
  rw [lines, pieces_eq_splitOnP] at hFirst
  rw [lines, lines, pieces_eq_splitOnP, pieces_eq_splitOnP, List.splitOnP_append_cons line rest rfl,
    hFirst]
  rfl

/-! ## Comments -/

/-- What a comment leaves of a line: all up to the first `#`. -/
def IsUncommented (line kept : List Char) : Prop :=
  '#' ∉ kept ∧ (line = kept ∨ ∃ comment, line = kept ++ '#' :: comment)

theorem isUncommented_iff {line kept : List Char} :
    IsUncommented line kept ↔ kept = line.takeWhile (· != '#') := by
  constructor
  · rintro ⟨hNone, hLine⟩
    have hKept : ∀ c ∈ kept, (c != '#') = true := fun c hMem => by
      rw [bne_iff_ne]
      exact fun hMark => hNone (hMark ▸ hMem)
    obtain rfl | ⟨comment, rfl⟩ := hLine
    · exact (List.takeWhile_eq_self_iff.mpr hKept).symm
    · rw [List.takeWhile_append_of_pos hKept]
      simp
  · rintro rfl
    refine ⟨fun hMark => by simpa using List.mem_takeWhile_imp hMark, ?_⟩
    have hWhole := List.takeWhile_append_dropWhile (p := (· != '#')) (l := line)
    cases hRest : line.dropWhile (· != '#') with
    | nil =>
        rw [hRest, List.append_nil] at hWhole
        exact .inl hWhole.symm
    | cons c comment =>
        have hMark : c = '#' := by
          have hStop := List.head?_dropWhile_not (· != '#') line
          rw [hRest] at hStop
          simpa using hStop
        rw [hRest, hMark] at hWhole
        exact .inr ⟨comment, hWhole.symm⟩

/-! ## Words -/

/-- The words of a text, from its front: white space is passed over, and a word is a run of other
characters that ends with the text or before white space. -/
inductive IsWords : List Char → List (List Char) → Prop
  | done : IsWords [] []
  | blank {c : Char} {rest : List Char} {ws : List (List Char)} (hBlank : isWhiteSpace c = true)
      (hRest : IsWords rest ws) : IsWords (c :: rest) ws
  | word {w rest : List Char} {ws : List (List Char)} (hSome : w ≠ [])
      (hRun : ∀ c ∈ w, isWhiteSpace c = false) (hEnd : ∀ c ∈ rest.head?, isWhiteSpace c = true)
      (hRest : IsWords rest ws) : IsWords (w ++ rest) (w :: ws)

theorem words_blank {c : Char} (hBlank : isWhiteSpace c = true) (rest : List Char) :
    words (c :: rest) = words rest := by
  simp [words, pieces, hBlank]

/-- White space separates the words on its sides. -/
theorem words_append_cons (cs : List Char) {c : Char} (hBlank : isWhiteSpace c = true)
    (rest : List Char) : words (cs ++ c :: rest) = words cs ++ words rest := by
  simp only [words, pieces_eq_splitOnP]
  rw [List.splitOnP_append_cons cs rest hBlank, List.filter_append]

/-- A run without white space is one word. -/
theorem words_of_run {w : List Char} (hSome : w ≠ []) (hRun : ∀ c ∈ w, isWhiteSpace c = false) :
    words w = [w] := by
  simp [words, pieces_eq_splitOnP, List.splitOnP_eq_singleton hRun, hSome]

/-- A run without white space, up to white space or the end, is a word. -/
theorem words_run {w rest : List Char} (hSome : w ≠ []) (hRun : ∀ c ∈ w, isWhiteSpace c = false)
    (hEnd : ∀ c ∈ rest.head?, isWhiteSpace c = true) : words (w ++ rest) = w :: words rest := by
  cases rest with
  | nil =>
      rw [List.append_nil, words_of_run hSome hRun]
      rfl
  | cons c tail =>
      have hBlank := hEnd c rfl
      rw [words_append_cons w hBlank, words_of_run hSome hRun, words_blank hBlank]
      rfl

/-- Every text is cut into words. -/
theorem isWords_words (cs : List Char) : IsWords cs (words cs) := by
  induction hLength : cs.length using Nat.strongRecOn generalizing cs with
  | ind n ih =>
      cases cs with
      | nil => exact .done
      | cons c rest =>
          rw [List.length_cons] at hLength
          cases hBlank : isWhiteSpace c with
          | true =>
              rw [words_blank hBlank]
              exact .blank hBlank (ih rest.length (by omega) rest rfl)
          | false =>
              -- The word goes on as far as it can; what follows it is shorter than the text.
              let more := rest.takeWhile (!isWhiteSpace ·)
              let after := rest.dropWhile (!isWhiteSpace ·)
              have hWhole : c :: rest = (c :: more) ++ after := by
                rw [List.cons_append, List.takeWhile_append_dropWhile]
              have hRun : ∀ d ∈ c :: more, isWhiteSpace d = false := by
                intro d hMem
                obtain rfl | hMore := List.mem_cons.mp hMem
                · exact hBlank
                · simpa using List.mem_takeWhile_imp hMore
              have hEnd : ∀ d ∈ after.head?, isWhiteSpace d = true := by
                intro d hHead
                have hStop := List.head?_dropWhile_not (!isWhiteSpace ·) rest
                rw [show after.head? = some d from hHead] at hStop
                simpa using hStop
              have hShort : after.length ≤ rest.length := (List.dropWhile_sublist _).length_le
              rw [hWhole, words_run (List.cons_ne_nil c more) hRun hEnd]
              exact .word (List.cons_ne_nil c more) hRun hEnd
                (ih after.length (by omega) after rfl)

/-- A text is cut into words in one way. -/
theorem isWords_iff {cs : List Char} {ws : List (List Char)} : IsWords cs ws ↔ ws = words cs := by
  constructor
  · intro hWords
    induction hWords with
    | done => rfl
    | blank hBlank _ ih => rw [words_blank hBlank, ih]
    | word hSome hRun hEnd _ ih => rw [words_run hSome hRun hEnd, ih]
  · rintro rfl
    exact isWords_words cs

end Text

namespace Table

/-! ## Tokens -/

/-- The tokens of a text, line by line: the words that the comment leaves of each line. -/
def Tokenised (cs : List Char) (tokens : List (List (List Char))) : Prop :=
  ∃ ls, Text.IsLines cs ls ∧
    List.Forall₂ (fun line ws => ∃ kept, Text.IsUncommented line kept ∧ Text.IsWords kept ws)
      ls tokens

/-- A text has one sequence of tokens, the words of its lines. -/
theorem tokenised_iff {cs : List Char} {tokens : List (List (List Char))} :
    Tokenised cs tokens ↔ tokens = (Text.lines cs).map wordsOfLine := by
  have hLine : (fun line ws => ∃ kept, Text.IsUncommented line kept ∧ Text.IsWords kept ws) =
      fun line ws => wordsOfLine line = ws := by
    funext line ws
    simp only [Text.isUncommented_iff, Text.isWords_iff, exists_eq_left, wordsOfLine, eq_comm]
  simp only [Tokenised, Text.isLines_iff, exists_eq_left, hLine]
  rw [← List.forall₂_map_left_iff (R := Eq), List.forall₂_eq_eq_eq, eq_comm]

/-- The word is written as the number. -/
def Reads (w : List Char) (x : Single) : Prop := Binary.read? .single w = some x

/-- The word is a number. -/
def Accepted (w : List Char) : Prop := ∃ x, Reads w x

/-- The first word of a line that is no number. -/
def FirstOfLine (ws : List (List Char)) (t : List Char) : Prop :=
  ∃ earlier later, ws = earlier ++ t :: later ∧ (∀ w ∈ earlier, Accepted w) ∧ ¬ Accepted t

/-- The first token that is no number, and the line it stands on.  Lines are counted from one, and
those without tokens count. -/
def FirstRejected (tokens : List (List (List Char))) (number : Nat) (t : List Char) : Prop :=
  ∃ before ws after, tokens = before ++ ws :: after ∧ (∀ w ∈ before.flatten, Accepted w) ∧
    FirstOfLine ws t ∧ number = before.length + 1

/-! ## A line -/

theorem read?_eq_none {w : List Char} (hNot : ¬ Accepted w) : Binary.read? .single w = none := by
  rw [Option.eq_none_iff_forall_ne_some]
  exact fun x hRead => hNot ⟨x, hRead⟩

theorem readWords_of_reads (number : Nat) {ws : List (List Char)} {row : List Single}
    (hReads : List.Forall₂ Reads ws row) : readWords number ws = .ok row := by
  induction hReads with
  | nil => rfl
  | cons hWord _ ih => rw [readWords, hWord, ih]; rfl

theorem readWords_of_firstOfLine (number : Nat) {ws : List (List Char)} {t : List Char}
    (hFirst : FirstOfLine ws t) : readWords number ws = .error (.badValue number t) := by
  obtain ⟨earlier, later, rfl, hEarlier, hNot⟩ := hFirst
  induction earlier with
  | nil => rw [List.nil_append, readWords, read?_eq_none hNot]
  | cons w rest ih =>
      obtain ⟨⟨x, hWord⟩, hRest⟩ := List.forall_mem_cons.mp hEarlier
      rw [List.cons_append, readWords, hWord, ih hRest]
      rfl

/-- The words of a line are numbers, or one of them is the first that is none. -/
theorem reads_or_firstOfLine (ws : List (List Char)) :
    (∃ row, List.Forall₂ Reads ws row) ∨ ∃ t, FirstOfLine ws t := by
  induction ws with
  | nil => exact .inl ⟨[], .nil⟩
  | cons w rest ih =>
      by_cases hWord : Accepted w
      · obtain ⟨x, hRead⟩ := hWord
        obtain ⟨row, hRow⟩ | ⟨t, earlier, later, rfl, hEarlier, hNot⟩ := ih
        · exact .inl ⟨x :: row, .cons hRead hRow⟩
        · exact .inr ⟨t, w :: earlier, later, rfl,
            List.forall_mem_cons.mpr ⟨⟨x, hRead⟩, hEarlier⟩, hNot⟩
      · exact .inr ⟨w, [], rest, rfl, List.forall_mem_nil _, hWord⟩

theorem accepted_of_reads {ws : List (List Char)} {row : List Single}
    (hReads : List.Forall₂ Reads ws row) : ∀ w ∈ ws, Accepted w := by
  induction hReads with
  | nil => exact List.forall_mem_nil _
  | cons hWord _ ih => exact List.forall_mem_cons.mpr ⟨⟨_, hWord⟩, ih⟩

theorem FirstOfLine.exists_rejected {ws : List (List Char)} {t : List Char}
    (hFirst : FirstOfLine ws t) : ∃ w ∈ ws, ¬ Accepted w := by
  obtain ⟨earlier, later, rfl, -, hNot⟩ := hFirst
  exact ⟨t, by simp, hNot⟩

/-- Words that are numbers one by one make up a row. -/
theorem exists_reads {ws : List (List Char)} (hAccepted : ∀ w ∈ ws, Accepted w) :
    ∃ row, List.Forall₂ Reads ws row := by
  obtain hReads | ⟨t, hFirst⟩ := reads_or_firstOfLine ws
  · exact hReads
  · obtain ⟨w, hMem, hNot⟩ := hFirst.exists_rejected
    exact absurd (hAccepted w hMem) hNot

/-! ## The lines -/

/-- The rows of the lines that have tokens. -/
def ReadsRows (tokens : List (List (List Char))) (rows : List (List Single)) : Prop :=
  List.Forall₂ (List.Forall₂ Reads) (tokens.filter (· ≠ [])) rows

/-- Lines whose tokens are numbers give a row each, those without tokens none. -/
theorem readLines_of_readsRows (number : Nat) {ls : List (List Char)} {rows : List (List Single)}
    (hReads : ReadsRows (ls.map wordsOfLine) rows) : readLines number ls = .ok rows := by
  induction ls generalizing number rows with
  | nil =>
      cases hReads
      rfl
  | cons line rest ih =>
      unfold ReadsRows at hReads
      rw [List.map_cons] at hReads
      cases hWords : wordsOfLine line with
      | nil =>
          rw [hWords, List.filter_cons_of_neg (by simp)] at hReads
          rw [readLines, hWords, readWords]
          exact ih (number + 1) hReads
      | cons w ws =>
          rw [hWords, List.filter_cons_of_pos (by simp)] at hReads
          obtain ⟨row, others, hRow, hOthers, rfl⟩ := List.forall₂_cons_left_iff.mp hReads
          cases hRow with
          | cons hWord hMore =>
            rw [readLines, hWords, readWords_of_reads number (.cons hWord hMore),
              ih (number + 1) hOthers]
            rfl

/-- Reading stops at the first token that is no number, with the number of its line. -/
theorem readLines_of_firstOfLine (number : Nat) {ls : List (List Char)}
    {before after : List (List (List Char))} {ws : List (List Char)} {t : List Char}
    (hTokens : ls.map wordsOfLine = before ++ ws :: after)
    (hBefore : ∀ w ∈ before.flatten, Accepted w) (hFirst : FirstOfLine ws t) :
    readLines number ls = .error (.badValue (number + before.length) t) := by
  induction before generalizing number ls with
  | nil =>
      obtain ⟨line, rest, rfl, rfl, -⟩ := List.map_eq_cons_iff.mp hTokens
      rw [readLines, readWords_of_firstOfLine number hFirst]
      rfl
  | cons first others ih =>
      obtain ⟨line, rest, rfl, rfl, hRest⟩ := List.map_eq_cons_iff.mp hTokens
      rw [List.flatten_cons, List.forall_mem_append] at hBefore
      have hOthers := ih (number + 1) hRest hBefore.2
      rw [Nat.add_right_comm] at hOthers
      obtain ⟨row, hRow⟩ := exists_reads hBefore.1
      rw [readLines, readWords_of_reads number hRow]
      -- a line without tokens is passed over, but it moves the line number on all the same
      cases row with
      | nil => exact hOthers
      | cons x xs =>
          rw [hOthers]
          rfl

/-- All tokens are numbers, or one of them is the first that is none. -/
theorem readsRows_or_firstRejected (tokens : List (List (List Char))) :
    (∃ rows, ReadsRows tokens rows) ∨ ∃ number t, FirstRejected tokens number t := by
  induction tokens with
  | nil => exact .inl ⟨[], .nil⟩
  | cons ws rest ih =>
      obtain ⟨row, hRow⟩ | ⟨t, hFirst⟩ := reads_or_firstOfLine ws
      · obtain ⟨rows, hRows⟩ | ⟨number, t, before, line, after, rfl, hBefore, hFirst, -⟩ := ih
        · left
          cases ws with
          | nil => exact ⟨rows, hRows⟩
          | cons w more => exact ⟨row :: rows, .cons hRow hRows⟩
        · have hAccepted : ∀ w ∈ (ws :: before).flatten, Accepted w := by
            rw [List.flatten_cons, List.forall_mem_append]
            exact ⟨accepted_of_reads hRow, hBefore⟩
          exact .inr ⟨_, t, ws :: before, line, after, rfl, hAccepted, hFirst, rfl⟩
      · exact .inr ⟨1, t, [], ws, rest, rfl, List.forall_mem_nil _, hFirst, rfl⟩

/-- The numbers are those of the tokens, in their order. -/
theorem ReadsRows.flatten {tokens : List (List (List Char))} {rows : List (List Single)}
    (hReads : ReadsRows tokens rows) : List.Forall₂ Reads tokens.flatten rows.flatten := by
  rw [← List.flatten_filter_ne_nil]
  exact List.rel_flatten hReads

theorem ReadsRows.ne_nil {tokens : List (List (List Char))} {rows : List (List Single)}
    (hReads : ReadsRows tokens rows) (hSome : tokens.flatten ≠ []) : rows ≠ [] := by
  rintro rfl
  exact hSome (List.forall₂_nil_right_iff.mp hReads.flatten)

theorem ReadsRows.forall_ne_nil {tokens : List (List (List Char))} {rows : List (List Single)}
    (hReads : ReadsRows tokens rows) : ∀ row ∈ rows, row ≠ [] := by
  have hSome : ∀ ws ∈ tokens.filter (· ≠ []), ws ≠ [] := fun ws hMem => by
    simpa using (List.mem_filter.mp hMem).2
  unfold ReadsRows at hReads
  generalize tokens.filter (· ≠ []) = filled at hReads hSome
  induction hReads with
  | nil => exact List.forall_mem_nil _
  | cons hRow _ ih =>
      rw [List.forall_mem_cons] at hSome ⊢
      refine ⟨?_, ih hSome.2⟩
      rintro rfl
      exact hSome.1 (List.forall₂_nil_right_iff.mp hRow)

theorem FirstRejected.exists_rejected {tokens : List (List (List Char))} {number : Nat}
    {t : List Char} (hFirst : FirstRejected tokens number t) :
    ∃ w ∈ tokens.flatten, ¬ Accepted w := by
  obtain ⟨before, ws, after, rfl, -, hLine, -⟩ := hFirst
  obtain ⟨w, hMem, hNot⟩ := hLine.exists_rejected
  exact ⟨w, List.mem_flatten_of_mem (by simp) hMem, hNot⟩

/-! ## The three outcomes -/

section

variable {text : String} {tokens : List (List (List Char))}
  (hTokens : Tokenised text.toList tokens)

include hTokens

theorem read_of_readsRows {rows : List (List Single)} (hReads : ReadsRows tokens rows)
    (hSome : tokens.flatten ≠ []) : read text = .ok rows := by
  have hRows := hReads.ne_nil hSome
  obtain rfl := tokenised_iff.mp hTokens
  rw [read, readChars, readLines_of_readsRows 1 hReads]
  cases rows with
  | nil => exact absurd rfl hRows
  | cons row others => rfl

theorem read_of_no_tokens (hNone : tokens.flatten = []) : read text = .error .noWeights := by
  obtain rfl := tokenised_iff.mp hTokens
  have hReads : ReadsRows ((Text.lines text.toList).map wordsOfLine) [] := by
    rw [List.flatten_eq_nil_iff] at hNone
    rw [ReadsRows, List.forall₂_nil_right_iff, List.filter_eq_nil_iff]
    simpa using hNone
  rw [read, readChars, readLines_of_readsRows 1 hReads]

theorem read_of_firstRejected {number : Nat} {t : List Char}
    (hFirst : FirstRejected tokens number t) : read text = .error (.badValue number t) := by
  obtain ⟨before, ws, after, hSplit, hBefore, hLine, rfl⟩ := hFirst
  rw [tokenised_iff.mp hTokens] at hSplit
  rw [read, readChars, readLines_of_firstOfLine 1 hSplit hBefore hLine, Nat.add_comm]

/-- Rows are read only from tokens that are numbers. -/
theorem readsRows_of_read {rows : List (List Single)} (hRead : read text = .ok rows) :
    ReadsRows tokens rows ∧ tokens.flatten ≠ [] := by
  have hSome : tokens.flatten ≠ [] := by
    intro hNone
    rw [read_of_no_tokens hTokens hNone] at hRead
    cases hRead
  obtain ⟨found, hReads⟩ | ⟨number, t, hFirst⟩ := readsRows_or_firstRejected tokens
  · rw [read_of_readsRows hTokens hReads hSome] at hRead
    cases hRead
    exact ⟨hReads, hSome⟩
  · rw [read_of_firstRejected hTokens hFirst] at hRead
    cases hRead

end

/-- **Reading accepts the grammar and names the first error.**  Every text has one sequence of
tokens.  It is read if and only if there is a token and every token is a number; the rows are then
the numbers of the lines that have tokens, none of them empty.  If a token is no number, the error
names the first such token and its line, and if there is no token at all the error says so. -/
theorem read_accepts_grammar (text : String) :
    ∃ tokens, (∀ found, Tokenised text.toList found ↔ found = tokens) ∧
      ((∃ rows, read text = .ok rows) ↔
        tokens.flatten ≠ [] ∧ ∀ t ∈ tokens.flatten, Accepted t) ∧
      (∀ rows, read text = .ok rows →
        ReadsRows tokens rows ∧ rows ≠ [] ∧ ∀ row ∈ rows, row ≠ []) ∧
      ((∃ t ∈ tokens.flatten, ¬ Accepted t) →
        ∃ number t, (∀ n w, FirstRejected tokens n w ↔ n = number ∧ w = t) ∧
          read text = .error (.badValue number t) ∧
          (TableError.badValue number t).message =
            "line " ++ Decimal.natText number ++ ": invalid value '" ++ String.ofList t ++ "'") ∧
      (tokens.flatten = [] →
        read text = .error .noWeights ∧ TableError.noWeights.message = "no weights found") := by
  obtain ⟨tokens, hFound⟩ : ∃ tokens, ∀ found, Tokenised text.toList found ↔ found = tokens :=
    ⟨_, fun _ => tokenised_iff⟩
  have hTokens : Tokenised text.toList tokens := (hFound tokens).mpr rfl
  refine ⟨tokens, hFound, ⟨?_, ?_⟩, ?_, ?_, ?_⟩
  · rintro ⟨rows, hRead⟩
    obtain ⟨hReads, hSome⟩ := readsRows_of_read hTokens hRead
    exact ⟨hSome, accepted_of_reads hReads.flatten⟩
  · rintro ⟨hSome, hAccepted⟩
    obtain ⟨rows, hReads⟩ | ⟨number, t, hFirst⟩ := readsRows_or_firstRejected tokens
    · exact ⟨rows, read_of_readsRows hTokens hReads hSome⟩
    · obtain ⟨w, hMem, hNot⟩ := hFirst.exists_rejected
      exact absurd (hAccepted w hMem) hNot
  · intro rows hRead
    obtain ⟨hReads, hSome⟩ := readsRows_of_read hTokens hRead
    exact ⟨hReads, hReads.ne_nil hSome, hReads.forall_ne_nil⟩
  · rintro ⟨w, hMem, hNot⟩
    obtain ⟨rows, hReads⟩ | ⟨number, t, hFirst⟩ := readsRows_or_firstRejected tokens
    · exact absurd (accepted_of_reads hReads.flatten w hMem) hNot
    · have hRead := read_of_firstRejected hTokens hFirst
      refine ⟨number, t, fun n u => ⟨fun hOther => ?_, ?_⟩, hRead, rfl⟩
      -- Two first tokens would be two errors of one reading.
      · rw [read_of_firstRejected hTokens hOther] at hRead
        cases hRead
        exact ⟨rfl, rfl⟩
      · rintro ⟨rfl, rfl⟩
        exact hFirst
  · intro hNone
    exact ⟨read_of_no_tokens hTokens hNone, rfl⟩

-- A carriage return ends neither the comment nor a line, and the lines without a token count.
example : readChars "# 1\rx\n\n\u00a03\rx\n".toList = .error (.badValue 3 ['x']) := rfl

end Table

end StepSampling
