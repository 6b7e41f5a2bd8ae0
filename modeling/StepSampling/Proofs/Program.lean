import StepSampling.Program
import StepSampling.Proofs.Survey.Completion
import StepSampling.Proofs.Table

/-!
# The work on a file

The work on a file adds to what has been written.  Blocks are what is added: they are appended in the
order of the paths, and muted where the run is quiet.

None of the work on a file meets a fault.  A file has no more weights than bytes, so the number of
weights is a word, surveys of so many weights run to their end, and a report has columns to number
its cells by.
-/

namespace StepSampling.Program

/-! ## Blocks -/

namespace Block

/-- Blocks, one after another. -/
def join (blocks : List Block) : Block := blocks.foldr append empty

theorem append_assoc (a b c : Block) : (a.append b).append c = a.append (b.append c) := by
  rw [append, append, append, append, String.append_assoc, List.append_assoc]

theorem empty_append (b : Block) : empty.append b = b := by
  rw [append, empty, String.empty_append, List.nil_append]

theorem append_empty (b : Block) : b.append empty = b := by
  rw [append, empty, String.append_empty, List.append_nil]

theorem join_append (xs ys : List Block) : join (xs ++ ys) = (join xs).append (join ys) := by
  induction xs with
  | nil => exact (empty_append (join ys)).symm
  | cons b rest ih =>
      show b.append (join (rest ++ ys)) = (b.append (join rest)).append (join ys)
      rw [ih, append_assoc]

/-- Logs some records. -/
def log (b : Block) (records : List Record) : Block := ⟨b.output, b.records ++ records⟩

/-- Writes a text to the standard output. -/
def print (b : Block) (text : String) : Block := ⟨b.output ++ text, b.records⟩

/-- Logging adds the records. -/
theorem log_eq_append (b : Block) (records : List Record) :
    b.log records = b.append (empty.log records) := by
  rw [append, log, log, empty, String.append_empty, List.nil_append]

theorem log_append (b x : Block) (records : List Record) :
    (b.append x).log records = b.append (x.log records) := by
  rw [log_eq_append, append_assoc, ← log_eq_append]

theorem print_append (b x : Block) (text : String) :
    (b.append x).print text = b.append (x.print text) := by
  rw [append, print, String.append_assoc]
  rfl

/-- A block without its output. -/
def muted (b : Block) : Block := ⟨"", b.records⟩

end Block

namespace Outcome

theorem behind_empty (r : Outcome) : r.behind .empty = r := by
  rw [behind, Block.empty_append]

theorem behind_behind (r : Outcome) (a b : Block) : (r.behind b).behind a = r.behind (a.append b) := by
  rw [behind, behind, behind, Block.append_assoc]

/-- An outcome without its output. -/
def muted (r : Outcome) : Outcome := ⟨r.code, r.block.muted⟩

end Outcome

/-! ## No fault -/

/-- The work on a file meets no fault, neither in the queries of its survey nor in the writing of
its report. -/
def Faultless (o : Options) (processors : Nat) (files : Files) (path : String) : Prop :=
  ∀ rows, readTable files path = .ok rows →
    (∀ f, (survey o processors rows).1 ≠ .error (.fault f)) ∧
      ∀ report, (survey o processors rows).1 = .ok report → ∃ text, report.text = .ok text

/-- A file has no more weights than bytes. -/
theorem length_le_size_of_readTable {files : Files} {path : String} {rows : List (List Single)}
    (hRows : readTable files path = .ok rows) :
    ∃ bytes, files path = .ok bytes ∧ rows.flatten.length ≤ bytes.size := by
  unfold readTable at hRows
  cases hContent : files path with
  | error f =>
      simp only [hContent] at hRows
      cases hRows
  | ok bytes =>
      simp only [hContent] at hRows
      cases hText : String.fromUTF8? bytes with
      | none =>
          rw [hText] at hRows
          cases hRows
      | some text =>
          rw [hText] at hRows
          exact ⟨bytes, rfl, Nat.le_trans (Table.length_read_le (Survey.eq_ok_of_mapError hRows))
            (length_le_size_of_fromUTF8? hText)⟩

/-- A survey of weights whose number is a word meets no fault. -/
theorem survey_ne_fault {o : Options} {processors : Nat} {rows : List (List Single)}
    (hWord : rows.flatten.length < 2 ^ 64) (f : Fault) :
    (survey o processors rows).1 ≠ .error (.fault f) := by
  unfold survey
  split
  · next weights =>
    rw [List.flatten_singleton] at hWord
    exact Survey.row_ne_fault hWord _ _ f
  · exact Survey.table_ne_fault hWord _ _ _ f

/-- A report can be written. -/
theorem exists_text_of_survey {o : Options} {processors : Nat} {rows : List (List Single)}
    {report : Report} (hReport : (survey o processors rows).1 = .ok report) :
    ∃ text, report.text = .ok text := by
  unfold survey at hReport
  split at hReport
  · exact Survey.exists_text_of_row hReport
  · exact Survey.exists_text_of_table hReport

/-- Files whose size is a word are worked on without a fault. -/
theorem faultless_of_size {o : Options} {processors : Nat} {files : Files} {path : String}
    (hSize : ∀ bytes, files path = .ok bytes → bytes.size < 2 ^ 64) :
    Faultless o processors files path := by
  intro rows hRows
  obtain ⟨bytes, hContent, hLength⟩ := length_le_size_of_readTable hRows
  have hBytes := hSize bytes hContent
  exact ⟨survey_ne_fault (by omega), fun report => exists_text_of_survey⟩

end StepSampling.Program
