import StepSampling.Table

/-!
# The size of a table

Cutting a text into pieces keeps its characters, those at which it is cut apart, in their order.
Words are pieces with at least one character, so a text has no more words than characters, and no
more characters than bytes.  The number of weights that is read from a file is therefore bounded by
the size of the file.
-/

namespace StepSampling

namespace Text

/-- The pieces hold the characters of the text that it is not cut at. -/
theorem flatten_pieces (cut : Char → Bool) (cs : List Char) :
    (pieces cut cs).flatten = cs.filter (!cut ·) := by
  fun_induction pieces cut cs with
  | case1 => rfl
  | case2 c rest hCut ih => simp [hCut, ih]
  | case3 c rest hKept hNone ih =>
      rw [hNone] at ih
      simp [hKept, ← ih]
  | case4 c rest hKept piece others hSome ih =>
      rw [hSome] at ih
      simp [hKept, ← ih]

/-- No more than as many lists as they have entries, if none is empty. -/
theorem length_le_length_flatten {α : Type} {parts : List (List α)}
    (hSome : ∀ part ∈ parts, part ≠ []) : parts.length ≤ parts.flatten.length := by
  induction parts with
  | nil => exact Nat.le_refl 0
  | cons part rest ih =>
      have hRest := ih fun p hMem => hSome p (List.mem_cons_of_mem part hMem)
      have hPart := List.length_pos_iff.mpr (hSome part List.mem_cons_self)
      rw [List.flatten_cons, List.length_append, List.length_cons]
      omega

/-- A text has no more words than characters. -/
theorem length_words_le (cs : List Char) : (words cs).length ≤ cs.length := by
  have hSome : ∀ word ∈ words cs, word ≠ [] := by
    intro word hMem
    simpa using (List.mem_filter.mp hMem).2
  calc (words cs).length ≤ (words cs).flatten.length := length_le_length_flatten hSome
    _ = (cs.filter (!isWhiteSpace ·)).length := by
        rw [words, List.flatten_filter_not_isEmpty, flatten_pieces]
    _ ≤ cs.length := List.length_filter_le _ cs

/-- The lines of a text have no more characters than the text. -/
theorem length_flatten_lines_le (cs : List Char) : (lines cs).flatten.length ≤ cs.length := by
  rw [lines, flatten_pieces]
  exact List.length_filter_le _ cs

end Text

namespace Table

/-- One number is read from each word. -/
theorem length_of_readWords {number : Nat} {words : List (List Char)} {row : List Single}
    (hRead : readWords number words = .ok row) : row.length = words.length := by
  induction words generalizing row with
  | nil =>
      cases hRead
      rfl
  | cons word rest ih =>
      rw [readWords] at hRead
      cases hWord : Binary.read? .single word with
      | none =>
          simp only [hWord] at hRead
          cases hRead
      | some x =>
          simp only [hWord] at hRead
          cases hRest : readWords number rest with
          | error e =>
              rw [hRest] at hRead
              cases hRead
          | ok tail =>
              rw [hRest] at hRead
              cases hRead
              rw [List.length_cons, List.length_cons, ih hRest]

/-- A line has no more numbers than characters. -/
theorem length_row_le {number : Nat} {line : List Char} {row : List Single}
    (hRead : readWords number (wordsOfLine line) = .ok row) : row.length ≤ line.length := by
  rw [length_of_readWords hRead]
  exact Nat.le_trans (Text.length_words_le _) (List.takeWhile_sublist _).length_le

/-- Lines have no more numbers than characters. -/
theorem length_rows_le {number : Nat} {lines : List (List Char)} {rows : List (List Single)}
    (hRead : readLines number lines = .ok rows) : rows.flatten.length ≤ lines.flatten.length := by
  induction lines generalizing number rows with
  | nil =>
      cases hRead
      exact Nat.le_refl 0
  | cons line rest ih =>
      rw [readLines] at hRead
      rw [List.flatten_cons, List.length_append]
      split at hRead
      · cases hRead
      · have hRest := ih hRead
        omega
      · next row _ hRow =>
        cases hTail : readLines (number + 1) rest with
        | error e =>
            rw [hTail] at hRead
            cases hRead
        | ok tail =>
            rw [hTail] at hRead
            cases hRead
            have hFirst := length_row_le hRow
            have hRest := ih hTail
            rw [List.flatten_cons, List.length_append]
            omega

/-- A table has no more numbers than characters. -/
theorem length_read_le {text : String} {rows : List (List Single)} (hRead : read text = .ok rows) :
    rows.flatten.length ≤ text.toList.length := by
  rw [read, readChars] at hRead
  split at hRead
  · cases hRead
  · cases hRead
  · next _ hLines =>
    cases hRead
    exact Nat.le_trans (length_rows_le hLines) (Text.length_flatten_lines_le _)

end Table

/-! ## Bytes -/

/-- Characters take at least one byte each. -/
theorem length_le_size_utf8Encode (cs : List Char) : cs.length ≤ cs.utf8Encode.size := by
  induction cs with
  | nil => exact Nat.zero_le _
  | cons c rest ih =>
      have hChar : 0 < [c].utf8Encode.size := by
        rw [List.utf8Encode_singleton]
        simpa using c.utf8Size_pos
      rw [List.utf8Encode_cons, ByteArray.size_append, List.length_cons]
      omega

/-- A decoded text has no more characters than bytes. -/
theorem length_le_size_of_fromUTF8? {bytes : ByteArray} {text : String}
    (hText : String.fromUTF8? bytes = some text) : text.toList.length ≤ bytes.size := by
  unfold String.fromUTF8? at hText
  split at hText
  · cases hText
    refine Nat.le_trans (length_le_size_utf8Encode _) ?_
    rw [String.utf8Encode_toList]
    exact Nat.le_refl _
  · cases hText

end StepSampling
