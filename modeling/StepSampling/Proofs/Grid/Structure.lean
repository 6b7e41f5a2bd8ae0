import StepSampling.Grid.Basic
import StepSampling.Proofs.Density.Sums
import Mathlib.Tactic.Ring

/-!
# What a built grid holds

The weights of a grid are cut into one stretch for each row, every stretch is built into the density
of its row, and the integrals of the rows are the weights of the marginal.
-/

namespace StepSampling

/-! ## Stretches -/

section

variable {α : Type}

theorem length_stretches (length rows : Nat) (xs : List α) :
    (stretches length rows xs).length = rows := by
  induction rows generalizing xs with
  | zero => rfl
  | succ rows ih => rw [stretches, List.length_cons, ih]

theorem getElem?_stretches (length rows : Nat) (xs : List α) {v : Nat} (hRow : v < rows) :
    (stretches length rows xs)[v]? = some ((xs.drop (v * length)).take length) := by
  induction rows generalizing xs v with
  | zero => omega
  | succ rows ih =>
      rw [stretches]
      cases v with
      | zero => simp
      | succ v =>
          rw [List.getElem?_cons_succ, ih _ (by omega), List.drop_drop, Nat.succ_mul,
            Nat.add_comm]

theorem length_stretch {length rows v : Nat} {xs : List α} (hSize : length * rows = xs.length)
    (hRow : v < rows) : ((xs.drop (v * length)).take length).length = length := by
  have hEnd : (v + 1) * length ≤ rows * length := Nat.mul_le_mul_right length hRow
  rw [Nat.succ_mul, Nat.mul_comm rows, hSize] at hEnd
  rw [List.length_take, List.length_drop]
  omega

theorem getElem?_stretch {length v c : Nat} (xs : List α) (hColumn : c < length) :
    ((xs.drop (v * length)).take length)[c]? = xs[v * length + c]? := by
  rw [List.getElem?_take_of_lt hColumn, List.getElem?_drop]

/-- The stretches of a list that is cut up whole make up the list. -/
theorem flatten_stretches {length rows : Nat} {xs : List α} (hSize : length * rows = xs.length) :
    (stretches length rows xs).flatten = xs := by
  induction rows generalizing xs with
  | zero =>
      rw [Nat.mul_zero] at hSize
      rw [List.eq_nil_of_length_eq_zero hSize.symm]
      rfl
  | succ rows ih =>
      rw [Nat.mul_succ] at hSize
      have hRest : length * rows = (xs.drop length).length := by
        rw [List.length_drop]
        omega
      rw [stretches, List.flatten_cons, ih hRest, List.take_append_drop]

/-- Lists of one length are the stretches of what they make up. -/
theorem stretches_flatten {length : Nat} {table : List (List α)}
    (hEqual : ∀ row ∈ table, row.length = length) :
    stretches length table.length table.flatten = table := by
  induction table with
  | nil => rfl
  | cons row rest ih =>
      have hRow : row.length = length := hEqual row List.mem_cons_self
      rw [List.length_cons, stretches, List.flatten_cons, List.take_left' hRow,
        List.drop_left' hRow, ih fun r hr => hEqual r (List.mem_cons_of_mem row hr)]

/-- The place of an entry of a table in the concatenation of its rows. -/
theorem getElem?_flatten_of_equal {length : Nat} {table : List (List α)}
    (hEqual : ∀ row ∈ table, row.length = length) {v c : Nat} {row : List α} {a : α}
    (hRow : table[v]? = some row) (hEntry : row[c]? = some a) :
    table.flatten[v * length + c]? = some a := by
  obtain ⟨hv, _⟩ := List.getElem?_eq_some_iff.mp hRow
  obtain ⟨hc, _⟩ := List.getElem?_eq_some_iff.mp hEntry
  rw [hEqual row (List.mem_of_getElem? hRow)] at hc
  have hStretch := getElem?_stretches length table.length table.flatten hv
  rw [stretches_flatten hEqual, hRow, Option.some.injEq] at hStretch
  rw [← getElem?_stretch table.flatten hc, ← hStretch, hEntry]

/-! ## Trying every entry of a list -/

variable {β ε : Type} {f : α → Except ε β}

/-- If every entry succeeds, the results stand at the places of their entries. -/
theorem getElem?_of_mapM_eq_ok {xs : List α} {ys : List β} (hOk : xs.mapM f = .ok ys) :
    ys.length = xs.length ∧
      ∀ (i : Nat) x, xs[i]? = some x → ∃ y, ys[i]? = some y ∧ f x = .ok y := by
  induction xs generalizing ys with
  | nil =>
      cases hOk
      exact ⟨rfl, fun i x hNone => by simp at hNone⟩
  | cons a rest ih =>
      rw [List.mapM_cons] at hOk
      cases hFirst : f a with
      | error e =>
          rw [hFirst] at hOk
          cases hOk
      | ok b =>
          cases hRest : rest.mapM f with
          | error e =>
              rw [hFirst, hRest] at hOk
              cases hOk
          | ok bs =>
              rw [hFirst, hRest] at hOk
              cases hOk
              obtain ⟨hLength, hEntries⟩ := ih hRest
              refine ⟨by rw [List.length_cons, List.length_cons, hLength], ?_⟩
              intro i x hEntry
              cases i with
              | zero =>
                  cases hEntry
                  exact ⟨b, rfl, hFirst⟩
              | succ i => exact hEntries i x hEntry

theorem exists_of_mapM_eq_error {xs : List α} {e : ε} (hError : xs.mapM f = .error e) :
    ∃ x ∈ xs, f x = .error e := by
  induction xs with
  | nil => cases hError
  | cons a rest ih =>
      rw [List.mapM_cons] at hError
      cases hFirst : f a with
      | error e' =>
          rw [hFirst] at hError
          cases hError
          exact ⟨a, List.mem_cons_self, hFirst⟩
      | ok b =>
          cases hRest : rest.mapM f with
          | error e' =>
              rw [hFirst, hRest] at hError
              cases hError
              obtain ⟨x, hMem, hFails⟩ := ih hRest
              exact ⟨x, List.mem_cons_of_mem a hMem, hFails⟩
          | ok bs =>
              rw [hFirst, hRest] at hError
              cases hError

end

/-! ## Built grids -/

theorem checkGrid_eq_ok {weights : List Single} {columns rows : Nat}
    (hCheck : checkGrid weights columns rows = .ok ()) :
    1 ≤ columns ∧ 1 ≤ rows ∧ columns * rows = weights.length ∧
      ∀ w ∈ weights, w.isWeight = true := by
  unfold checkGrid at hCheck
  split at hCheck
  · cases hCheck
  · next hDimensions =>
    split at hCheck
    · cases hCheck
    · next hSize =>
      exact ⟨by omega, by omega, by omega, ((checkWeights_eq_ok_iff weights).mp hCheck).2⟩

namespace GridDensity

/-- What it means that a grid has been built. -/
theorem build_eq_ok {weights : List Single} {columns rows : Nat} {d : GridDensity}
    (hBuild : build weights columns rows = .ok d) :
    1 ≤ columns ∧ 1 ≤ rows ∧ columns * rows = weights.length ∧ d.rows.size = rows ∧
      (∀ v < rows, ∃ row, d.rows[v]? = some row ∧
        StepDensity.build ((weights.drop (v * columns)).take columns) = .ok row) ∧
      StepDensity.build (d.rows.toList.map (·.integral)) = .ok d.marginal := by
  unfold build at hBuild
  split at hBuild
  · cases hBuild
  · next hCheck =>
    obtain ⟨hColumns, hRows, hSize, _⟩ := checkGrid_eq_ok hCheck
    split at hBuild
    · cases hBuild
    · next built hBuilt =>
      obtain ⟨hLength, hEntries⟩ := getElem?_of_mapM_eq_ok hBuilt
      rw [length_stretches] at hLength
      unfold ofRows at hBuild
      cases hMarginal : StepDensity.build (built.map (·.integral)) with
      | error r =>
          rw [hMarginal] at hBuild
          cases hBuild
      | ok marginal =>
          rw [hMarginal] at hBuild
          cases hBuild
          refine ⟨hColumns, hRows, hSize, by simpa using hLength, ?_, by simpa using hMarginal⟩
          intro v hRow
          obtain ⟨row, hEntry, hRowBuild⟩ :=
            hEntries v _ (getElem?_stretches columns rows weights hRow)
          exact ⟨row, by simpa using hEntry, hRowBuild⟩

end GridDensity

end StepSampling
