import StepSampling.Proofs.Decimal.Reading
import StepSampling.Proofs.Table.Grammar

/-!
# Tables read back

A table can be laid out in many ways: any white space stands between the numbers and at both ends of
a line, a comment stands behind a row, blank lines and lines of comment stand anywhere, and each line
ends in one of two ways.  `IsLayout` is the relation between rows and all texts that they can be
written as, and every such text is read as exactly these rows.

The argument follows the layers of the reader.  The words of a line that holds a row are the written
numbers, because a written number has no white space and no `#`; a carriage return before the line
feed belongs to the white space or to the comment; and each line of the layout is one line of the
text.
-/

namespace StepSampling

/-! ## The characters of a number -/

namespace Binary

variable {F : Format}

/-- The characters of a number that are no digits. -/
def letters : List Char := ['-', '.', 'N', 'a', 'i', 'n', 'f']

theorem isDigit_or_of_mem_chars {x : Binary F} {c : Char} (hMem : c ∈ x.chars) :
    Decimal.isDigit c = true ∨ c ∈ letters := by
  match x with
  | .nan =>
    have hWord : "NaN".toList ⊆ letters := by decide
    exact .inr (hWord hMem)
  | .signed negative m =>
    have hSign : ∀ s : Bool, (if s then ['-'] else []) ⊆ letters := by decide
    have hWord : "inf".toList ⊆ letters := by decide
    rw [chars, charsWith, List.mem_append] at hMem
    obtain hFront | hMagnitude := hMem
    · exact .inr (hSign negative hFront)
    · split at hMagnitude
      · exact .inr (hWord hMagnitude)
      · obtain hDigit | rfl := Decimal.isDigit_or_of_mem_chars hMagnitude
        · exact .inl hDigit
        · exact .inr (by decide)

/-- A number is written without white space and without the mark of a comment. -/
theorem plain_of_mem_chars {x : Binary F} {c : Char} (hMem : c ∈ x.chars) :
    Text.isWhiteSpace c = false ∧ c ≠ '#' := by
  obtain hDigit | hLetter := isDigit_or_of_mem_chars hMem
  · rw [Decimal.isDigit_iff] at hDigit
    constructor
    · simp [Text.isWhiteSpace, Text.whiteSpaceRanges]
      omega
    · rintro rfl
      revert hDigit
      decide
  · have hAll : letters.all (fun d => !Text.isWhiteSpace d && d != '#') = true := by decide
    simpa using List.all_eq_true.mp hAll c hLetter

theorem chars_ne_nil (x : Binary F) : x.chars ≠ [] := by
  intro hNone
  have hRead := read?_chars x
  rw [hNone] at hRead
  cases hRead

end Binary

namespace Table

/-! ## Layouts -/

/-- White space within a line. -/
def IsGap (gap : List Char) : Prop := ∀ c ∈ gap, Text.isWhiteSpace c = true ∧ c ≠ '\n'

/-- No comment, or a `#` and what follows it on the line. -/
def IsRemark (remark : List Char) : Prop :=
  remark = [] ∨ ∃ note, remark = '#' :: note ∧ '\n' ∉ note

/-- The numbers of a row one after the other, white space between them. -/
inductive IsCells : List Single → List Char → Prop
  | none : IsCells [] []
  | last (x : Single) : IsCells [x] x.chars
  | next (x : Single) {row : List Single} {gap cells : List Char} (hSome : gap ≠ [])
      (hGap : IsGap gap) (hRow : row ≠ []) (hCells : IsCells row cells) :
      IsCells (x :: row) (x.chars ++ gap ++ cells)

/-- A line that holds the numbers of a row; the line of no number is blank or a comment. -/
inductive IsLine (row : List Single) : List Char → Prop
  | intro {front cells back remark : List Char} (hFront : IsGap front) (hCells : IsCells row cells)
      (hBack : IsGap back) (hRemark : IsRemark remark) :
      IsLine row (front ++ cells ++ back ++ remark)

/-- How a line ends before the rest of the text: by a line feed, by a carriage return and a line
feed, or with the text. -/
inductive IsEnding : List Char → List Char → Prop
  | feed (rest : List Char) : IsEnding ['\n'] rest
  | returnFeed (rest : List Char) : IsEnding ['\r', '\n'] rest
  | text : IsEnding [] []

/-- The texts that the rows can be written as. -/
inductive IsLayout : List (List Single) → List Char → Prop
  | done : IsLayout [] []
  | blank {rows : List (List Single)} {line ending rest : List Char} (hLine : IsLine [] line)
      (hEnding : IsEnding ending rest) (hRest : IsLayout rows rest) :
      IsLayout rows (line ++ ending ++ rest)
  | row {row : List Single} {rows : List (List Single)} {line ending rest : List Char}
      (hSome : row ≠ []) (hLine : IsLine row line) (hEnding : IsEnding ending rest)
      (hRest : IsLayout rows rest) : IsLayout (row :: rows) (line ++ ending ++ rest)

theorem isGap_singleton {c : Char} (hBlank : Text.isWhiteSpace c = true) (hKept : c ≠ '\n') :
    IsGap [c] :=
  List.forall_mem_singleton.mpr ⟨hBlank, hKept⟩

theorem IsGap.append {front back : List Char} (hFront : IsGap front) (hBack : IsGap back) :
    IsGap (front ++ back) :=
  List.forall_mem_append.mpr ⟨hFront, hBack⟩

/-! ## The words of a line -/

theorem words_gap_append {gap : List Char} (hGap : IsGap gap) (cs : List Char) :
    Text.words (gap ++ cs) = Text.words cs := by
  induction gap with
  | nil => rfl
  | cons c gap ih =>
      obtain ⟨hFirst, hMore⟩ := List.forall_mem_cons.mp hGap
      rw [List.cons_append, Text.words_blank hFirst.1, ih hMore]

/-- A gap separates the words on its sides. -/
theorem words_append_gap_append (cs : List Char) {gap : List Char} (hSome : gap ≠ [])
    (hGap : IsGap gap) (rest : List Char) :
    Text.words (cs ++ gap ++ rest) = Text.words cs ++ Text.words rest := by
  cases gap with
  | nil => exact absurd rfl hSome
  | cons c gap =>
      obtain ⟨hFirst, hMore⟩ := List.forall_mem_cons.mp hGap
      rw [List.append_assoc, List.cons_append, Text.words_append_cons cs hFirst.1,
        words_gap_append hMore]

theorem words_append_gap {gap : List Char} (hGap : IsGap gap) (cs : List Char) :
    Text.words (cs ++ gap) = Text.words cs := by
  by_cases hNone : gap = []
  · rw [hNone, List.append_nil]
  · have hSplit := words_append_gap_append cs hNone hGap []
    have hEnd : Text.words [] = [] := rfl
    rwa [hEnd, List.append_nil, List.append_nil] at hSplit

theorem words_chars (x : Single) : Text.words x.chars = [x.chars] :=
  Text.words_of_run x.chars_ne_nil fun _ hMem => (Binary.plain_of_mem_chars hMem).1

/-- The words between the gaps are the written numbers. -/
theorem IsCells.words_eq {row : List Single} {cells : List Char} (hCells : IsCells row cells) :
    Text.words cells = row.map Binary.chars := by
  induction hCells with
  | none => rfl
  | last x => exact words_chars x
  | next x hSome hGap _ _ ih =>
      rw [words_append_gap_append x.chars hSome hGap, words_chars, ih]
      rfl

/-- Neither gaps nor numbers break the line or start a comment. -/
theorem IsGap.plain {gap : List Char} (hGap : IsGap gap) : ∀ c ∈ gap, c ≠ '\n' ∧ c ≠ '#' := by
  intro c hMem
  obtain ⟨hBlank, hKept⟩ := hGap c hMem
  refine ⟨hKept, ?_⟩
  rintro rfl
  cases hBlank

theorem plain_chars (x : Single) : ∀ c ∈ x.chars, c ≠ '\n' ∧ c ≠ '#' := by
  intro c hMem
  obtain ⟨hRun, hMark⟩ := Binary.plain_of_mem_chars hMem
  refine ⟨?_, hMark⟩
  rintro rfl
  cases hRun

theorem IsCells.plain {row : List Single} {cells : List Char} (hCells : IsCells row cells) :
    ∀ c ∈ cells, c ≠ '\n' ∧ c ≠ '#' := by
  induction hCells with
  | none => exact List.forall_mem_nil _
  | last x => exact plain_chars x
  | next x _ hGap _ _ ih =>
      rw [List.forall_mem_append, List.forall_mem_append]
      exact ⟨⟨plain_chars x, hGap.plain⟩, ih⟩

theorem plain_body {row : List Single} {front cells back : List Char} (hFront : IsGap front)
    (hCells : IsCells row cells) (hBack : IsGap back) :
    ∀ c ∈ front ++ cells ++ back, c ≠ '\n' ∧ c ≠ '#' := by
  rw [List.forall_mem_append, List.forall_mem_append]
  exact ⟨⟨hFront.plain, hCells.plain⟩, hBack.plain⟩

section

variable {row : List Single} {line : List Char} (hLine : IsLine row line)

include hLine

/-- The words of a line are the written numbers of its row. -/
theorem IsLine.wordsOfLine_eq : wordsOfLine line = row.map Binary.chars := by
  obtain ⟨hFront, hCells, hBack, hRemark⟩ := hLine
  next front cells back remark =>
  have hKept : Text.IsUncommented (front ++ cells ++ back ++ remark) (front ++ cells ++ back) := by
    refine ⟨fun hMark => (plain_body hFront hCells hBack _ hMark).2 rfl, ?_⟩
    obtain rfl | ⟨note, rfl, -⟩ := hRemark
    · exact .inl (List.append_nil _)
    · exact .inr ⟨note, rfl⟩
  rw [wordsOfLine, ← Text.isUncommented_iff.mp hKept, List.append_assoc, words_gap_append hFront,
    words_append_gap hBack, hCells.words_eq]

theorem IsLine.unbroken : '\n' ∉ line := by
  obtain ⟨hFront, hCells, hBack, hRemark⟩ := hLine
  rw [List.mem_append, not_or]
  refine ⟨fun hBreak => (plain_body hFront hCells hBack _ hBreak).1 rfl, ?_⟩
  obtain rfl | ⟨note, rfl, hNote⟩ := hRemark
  · simp
  · simpa using hNote

/-- A carriage return behind a line belongs to its white space or to its comment. -/
theorem IsLine.append_return : IsLine row (line ++ ['\r']) := by
  obtain ⟨hFront, hCells, hBack, hRemark⟩ := hLine
  next front cells back remark =>
  have hReturn : IsGap ['\r'] := isGap_singleton rfl (by decide)
  obtain rfl | ⟨note, rfl, hNote⟩ := hRemark
  · have hLonger := IsLine.intro hFront hCells (hBack.append hReturn) (.inl rfl)
    simpa using hLonger
  · have hLonger := IsLine.intro hFront hCells hBack
      (.inr ⟨note ++ ['\r'], rfl, by simpa using hNote⟩)
    simpa using hLonger

end

/-! ## The lines of a layout -/

/-- A line of a layout gives the numbers of its row as words, and none if there are none. -/
theorem tokens_line {row : List Single} {line ending rest : List Char} (hLine : IsLine row line)
    (hEnding : IsEnding ending rest) :
    ((Text.lines (line ++ ending ++ rest)).map wordsOfLine).filter (· ≠ []) =
      [row.map Binary.chars].filter (· ≠ []) ++
        ((Text.lines rest).map wordsOfLine).filter (· ≠ []) := by
  have hFeed : ∀ {found : List Char}, IsLine row found →
      ((Text.lines (found ++ '\n' :: rest)).map wordsOfLine).filter (· ≠ []) =
        [row.map Binary.chars].filter (· ≠ []) ++
          ((Text.lines rest).map wordsOfLine).filter (· ≠ []) := by
    intro found hFound
    rw [Text.lines_append hFound.unbroken, List.map_cons, hFound.wordsOfLine_eq, ← List.filter_append]
    rfl
  cases hEnding with
  | feed =>
      rw [List.append_assoc]
      exact hFeed hLine
  | returnFeed =>
      have hSplit : line ++ ['\r', '\n'] ++ rest = line ++ ['\r'] ++ '\n' :: rest := by simp
      rw [hSplit]
      exact hFeed hLine.append_return
  | text =>
      rw [List.append_nil, List.append_nil, Text.lines_of_unbroken hLine.unbroken, List.map_singleton,
        hLine.wordsOfLine_eq]
      exact (List.append_nil _).symm

theorem reads_chars (row : List Single) : List.Forall₂ Reads (row.map Binary.chars) row := by
  induction row with
  | nil => exact .nil
  | cons x row ih => exact .cons x.read?_chars ih

/-- The lines of a layout give its rows. -/
theorem IsLayout.readsRows {rows : List (List Single)} {cs : List Char} (hLayout : IsLayout rows cs) :
    ReadsRows ((Text.lines cs).map wordsOfLine) rows := by
  induction hLayout with
  | done => exact .nil
  | blank hLine hEnding _ ih =>
      rw [ReadsRows, tokens_line hLine hEnding]
      exact ih
  | @row row rows line ending rest hSome hLine hEnding _ ih =>
      have hWords : row.map Binary.chars ≠ [] := by simpa using hSome
      rw [ReadsRows, tokens_line hLine hEnding, List.filter_cons_of_pos (by simpa using hWords)]
      exact .cons (reads_chars row) ih

/-! ## Layouts exist -/

theorem exists_cells (row : List Single) : ∃ cells, IsCells row cells := by
  induction row with
  | nil => exact ⟨[], .none⟩
  | cons x row ih =>
      obtain ⟨cells, hCells⟩ := ih
      cases row with
      | nil => exact ⟨x.chars, .last x⟩
      | cons y row =>
          have hSpace : IsGap [' '] := isGap_singleton rfl (by decide)
          exact ⟨_, .next x (List.cons_ne_nil _ _) hSpace (List.cons_ne_nil y row) hCells⟩

theorem exists_layout {rows : List (List Single)} (hRows : ∀ row ∈ rows, row ≠ []) :
    ∃ cs, IsLayout rows cs := by
  have hNone : IsGap [] := List.forall_mem_nil _
  induction rows with
  | nil => exact ⟨[], .done⟩
  | cons row rows ih =>
      obtain ⟨hSome, hMore⟩ := List.forall_mem_cons.mp hRows
      obtain ⟨rest, hRest⟩ := ih hMore
      obtain ⟨cells, hCells⟩ := exists_cells row
      exact ⟨_, .row hSome (.intro hNone hCells hNone (.inl rfl)) (.feed rest) hRest⟩

/-- **Rendered tables read back.**  Rows of numbers, whatever the numbers are, can be written as a
table if there is no empty row, and every text that lays them out is read as exactly these rows, each
number with its sign, if there is a row. -/
theorem layout_reads_back (rows : List (List Single)) (hSome : rows ≠ [])
    (hRows : ∀ row ∈ rows, row ≠ []) :
    (∃ text : String, IsLayout rows text.toList) ∧
      ∀ text : String, IsLayout rows text.toList → read text = .ok rows := by
  constructor
  · obtain ⟨cs, hLayout⟩ := exists_layout hRows
    exact ⟨String.ofList cs, by rwa [String.toList_ofList]⟩
  · intro text hLayout
    rw [read, readChars, readLines_of_readsRows 1 hLayout.readsRows]
    cases rows with
    | nil => exact absurd rfl hSome
    | cons row rows => rfl

/-- Comment, blank line, both line ends and several spaces in one text. -/
theorem layout_reads_back_mixed :
    read "# weights\r\n\u00a00.1\t\u2003-0 NaN # a # b\r\n\n-inf" =
      .ok [[.ofBits .single 0x3dcccccd, -Binary.zero, .nan], [-Binary.infinity]] := by
  have hNone : IsGap [] := List.forall_mem_nil _
  have hSpace : IsGap [' '] := isGap_singleton rfl (by decide)
  have hFixed : IsGap ['\u00a0'] := isGap_singleton rfl (by decide)
  have hTab : IsGap ['\t', '\u2003'] :=
    (isGap_singleton rfl (by decide)).append (isGap_singleton rfl (by decide))
  have hCells := IsCells.next (.ofBits .single 0x3dcccccd) (List.cons_ne_nil _ _) hTab
    (List.cons_ne_nil _ _)
    (.next (-Binary.zero) (List.cons_ne_nil _ _) hSpace (List.cons_ne_nil _ _) (.last .nan))
  have hFirst : IsLine [] ([] ++ [] ++ [] ++ '#' :: " weights".toList) :=
    .intro hNone .none hNone (.inr ⟨" weights".toList, rfl, by decide⟩)
  have hSecond := IsLine.intro hFixed hCells hSpace (.inr ⟨" a # b".toList, rfl, by decide⟩)
  have hBlank : IsLine [] ([] ++ [] ++ [] ++ []) := .intro hNone .none hNone (.inl rfl)
  have hLast := IsLine.intro hNone (.last (-Binary.infinity)) hNone (.inl rfl)
  have hLayout := IsLayout.blank hFirst (.returnFeed _) <|
    .row (List.cons_ne_nil _ _) hSecond (.returnFeed _) <|
    .blank hBlank (.feed _) <|
    .row (List.cons_ne_nil _ _) hLast .text .done
  refine (layout_reads_back _ (List.cons_ne_nil _ _) (by decide)).2 _ ?_
  convert hLayout using 1
  decide +kernel

end Table

end StepSampling
