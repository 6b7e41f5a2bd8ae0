import Mathlib.Order.Bounds.Basic
import StepSampling.Proofs.Search

/-!
# The search as a run on words

The bisection is a loop over two indices.  `Run` follows this loop on 64-bit words: it lists the
indices at which the predicate is evaluated, and each of its additions and subtractions must have a
result that is again a word.  From a range of words there is always exactly one run, it stays inside
the range, and it stops where `bisect` does.  So the search ends for every predicate, never looks
outside its range, and no index overflows.

What the search returns is a boundary of the predicate.  For a predicate that fails for good once it
fails there is only one boundary, and that is the last index at which the predicate holds.
-/

namespace StepSampling.Search

/-! ## Arithmetic of words -/

/-- The sum of two words, if it is a word. -/
def addWords (a b : Nat) : Option Nat := if a + b < UInt64.size then some (a + b) else none

/-- The difference of two words, if it is a word. -/
def subWords (a b : Nat) : Option Nat := if b ≤ a then some (a - b) else none

/-- The middle of a range of words, if no operation on the way overflows. -/
def middleOfWords (lo hi : Nat) : Option Nat :=
  (subWords hi lo).bind fun width => addWords lo (width / 2)

theorem addWords_eq {a b : Nat} (hWord : a + b < UInt64.size) : addWords a b = some (a + b) :=
  if_pos hWord

theorem subWords_eq {a b : Nat} (hLe : b ≤ a) : subWords a b = some (a - b) := if_pos hLe

theorem middleOfWords_eq {lo hi : Nat} (hLt : lo < hi) (hWord : hi < UInt64.size) :
    middleOfWords lo hi = some (middle lo hi) := by
  have hMiddle := middle_range hLt
  rw [middleOfWords, subWords_eq hLt.le, Option.bind_some]
  exact addWords_eq (by unfold middle at hMiddle; omega)

/-! ## Runs -/

/-- The loop of the bisection, started with the range `[lo, hi)`: the indices at which it evaluates
the predicate, in their order, and the index at which it stops. -/
inductive Run (pred : Nat → Bool) : Nat → Nat → List Nat → Nat → Prop
  /-- The range is empty. -/
  | stop {lo hi : Nat} (hDone : hi ≤ lo) : Run pred lo hi [] lo
  /-- The predicate holds in the middle, and the loop goes on behind it. -/
  | behind {lo hi mid next stop : Nat} {probes : List Nat} (hMore : lo < hi)
      (hMiddle : middleOfWords lo hi = some mid) (hHolds : pred mid = true)
      (hNext : addWords mid 1 = some next) (hRest : Run pred next hi probes stop) :
      Run pred lo hi (mid :: probes) stop
  /-- The predicate fails in the middle, and the loop goes on before it. -/
  | before {lo hi mid stop : Nat} {probes : List Nat} (hMore : lo < hi)
      (hMiddle : middleOfWords lo hi = some mid) (hFails : pred mid = false)
      (hRest : Run pred lo mid probes stop) : Run pred lo hi (mid :: probes) stop

/-- The search for the last index: the loop, and the index before its end unless it ends where it
started. -/
inductive Finds (pred : Nat → Bool) (first last : Nat) : List Nat → Option Nat → Prop
  /-- The loop has moved. -/
  | found {probes : List Nat} {stop i : Nat} (hRun : Run pred first last probes stop)
      (hMoved : first < stop) (hIndex : subWords stop 1 = some i) :
      Finds pred first last probes (some i)
  /-- The loop ends where it started. -/
  | nothing {probes : List Nat} {stop : Nat} (hRun : Run pred first last probes stop)
      (hStayed : stop ≤ first) : Finds pred first last probes none

/-- The search for a pair of neighbours among `size` entries. -/
inductive FindsInterval (pred : Nat → Bool) (size : Nat) : List Nat → Nat → Prop
  /-- There is an index, and it is moved to the last pair if it starts none. -/
  | clamped {probes : List Nat} {i high : Nat} (hFound : Finds pred 0 size probes (some i))
      (hHigh : subWords size 2 = some high) : FindsInterval pred size probes (min i high)
  /-- There is no index. -/
  | start {probes : List Nat} (hFound : Finds pred 0 size probes none) :
      FindsInterval pred size probes 0

/-- From a range of words the loop runs to its end, inside the range. -/
theorem exists_run (pred : Nat → Bool) {lo hi : Nat} (hLow : lo < UInt64.size)
    (hHigh : hi < UInt64.size) :
    ∃ probes, Run pred lo hi probes (bisect pred lo hi) ∧ ∀ i ∈ probes, lo ≤ i ∧ i < hi := by
  fun_induction bisect pred lo hi with
  | case1 lo hi hLt hHolds ih =>
      have hMiddle := middle_range hLt
      obtain ⟨probes, hRun, hInside⟩ := ih (by omega) hHigh
      refine ⟨_, .behind hLt (middleOfWords_eq hLt hHigh) hHolds (addWords_eq (by omega)) hRun, ?_⟩
      rw [List.forall_mem_cons]
      refine ⟨hMiddle, fun i hProbe => ?_⟩
      have hBounds := hInside i hProbe
      omega
  | case2 lo hi hLt hFails ih =>
      have hMiddle := middle_range hLt
      obtain ⟨probes, hRun, hInside⟩ := ih hLow (by omega)
      refine ⟨_, .before hLt (middleOfWords_eq hLt hHigh) (by simpa using hFails) hRun, ?_⟩
      rw [List.forall_mem_cons]
      refine ⟨hMiddle, fun i hProbe => ?_⟩
      have hBounds := hInside i hProbe
      omega
  | case3 lo hi hDone => exact ⟨[], .stop (by omega), List.forall_mem_nil _⟩

/-- There is only one run from a range. -/
theorem Run.unique {pred : Nat → Bool} {lo hi s t : Nat} {ps qs : List Nat}
    (hFirst : Run pred lo hi ps s) (hSecond : Run pred lo hi qs t) : ps = qs ∧ s = t := by
  induction hFirst generalizing qs t with
  | stop hDone =>
      cases hSecond with
      | stop => exact ⟨rfl, rfl⟩
      | behind hMore => omega
      | before hMore => omega
  | behind hMore hMiddle hHolds hNext _ ih =>
      cases hSecond with
      | stop hDone => omega
      | behind _ hMiddle' _ hNext' hRest =>
          obtain rfl := Option.some.inj (hMiddle.symm.trans hMiddle')
          obtain rfl := Option.some.inj (hNext.symm.trans hNext')
          obtain ⟨rfl, rfl⟩ := ih hRest
          exact ⟨rfl, rfl⟩
      | before _ hMiddle' hFails =>
          obtain rfl := Option.some.inj (hMiddle.symm.trans hMiddle')
          rw [hHolds] at hFails
          cases hFails
  | before hMore hMiddle hFails _ ih =>
      cases hSecond with
      | stop hDone => omega
      | behind _ hMiddle' hHolds =>
          obtain rfl := Option.some.inj (hMiddle.symm.trans hMiddle')
          rw [hFails] at hHolds
          cases hHolds
      | before _ hMiddle' _ hRest =>
          obtain rfl := Option.some.inj (hMiddle.symm.trans hMiddle')
          obtain ⟨rfl, rfl⟩ := ih hRest
          exact ⟨rfl, rfl⟩

/-- The search for the last index comes to an end on words, with the result of `upperBound`. -/
theorem exists_finds (pred : Nat → Bool) {first last : Nat} (hFirst : first < UInt64.size)
    (hLast : last < UInt64.size) :
    ∃ probes, Finds pred first last probes (upperBound first last pred) ∧
      ∀ i ∈ probes, first ≤ i ∧ i < last := by
  obtain ⟨probes, hRun, hInside⟩ := exists_run pred hFirst hLast
  refine ⟨probes, ?_, hInside⟩
  unfold upperBound
  by_cases hMoved : first < bisect pred first last
  · simp only [if_pos hMoved]
    exact .found hRun hMoved (subWords_eq (by omega))
  · simp only [if_neg hMoved]
    exact .nothing hRun (by omega)

theorem Finds.unique {pred : Nat → Bool} {first last : Nat} {ps qs : List Nat} {r s : Option Nat}
    (hFirst : Finds pred first last ps r) (hSecond : Finds pred first last qs s) :
    ps = qs ∧ r = s := by
  cases hFirst with
  | found hRun hMoved hIndex =>
      cases hSecond with
      | found hRun' _ hIndex' =>
          obtain ⟨rfl, rfl⟩ := hRun.unique hRun'
          exact ⟨rfl, hIndex.symm.trans hIndex'⟩
      | nothing hRun' hStayed =>
          obtain ⟨rfl, rfl⟩ := hRun.unique hRun'
          omega
  | nothing hRun hStayed =>
      cases hSecond with
      | found hRun' hMoved =>
          obtain ⟨rfl, rfl⟩ := hRun.unique hRun'
          omega
      | nothing hRun' =>
          obtain ⟨rfl, rfl⟩ := hRun.unique hRun'
          exact ⟨rfl, rfl⟩

/-- The search for a pair of neighbours comes to an end on words, with the result of `interval`. -/
theorem exists_findsInterval (pred : Nat → Bool) {size : Nat} (hSize : 2 ≤ size)
    (hWord : size < UInt64.size) :
    ∃ probes, FindsInterval pred size probes
        ((upperBound 0 size pred).elim 0 (min · (size - 2))) ∧ ∀ i ∈ probes, i < size := by
  have hZero : 0 < UInt64.size := by decide
  obtain ⟨probes, hFinds, hInside⟩ := exists_finds pred hZero hWord
  refine ⟨probes, ?_, fun i hProbe => (hInside i hProbe).2⟩
  cases hFound : upperBound 0 size pred with
  | none => exact .start (hFound ▸ hFinds)
  | some i => exact .clamped (hFound ▸ hFinds) (subWords_eq hSize)

theorem FindsInterval.unique {pred : Nat → Bool} {size j k : Nat} {ps qs : List Nat}
    (hFirst : FindsInterval pred size ps j) (hSecond : FindsInterval pred size qs k) :
    ps = qs ∧ j = k := by
  cases hFirst with
  | clamped hFound hHigh =>
      cases hSecond with
      | clamped hFound' hHigh' =>
          obtain ⟨rfl, hSame⟩ := hFound.unique hFound'
          obtain rfl := Option.some.inj hSame
          obtain rfl := Option.some.inj (hHigh.symm.trans hHigh')
          exact ⟨rfl, rfl⟩
      | start hFound' => cases (hFound.unique hFound').2
  | start hFound =>
      cases hSecond with
      | clamped hFound' => cases (hFound.unique hFound').2
      | start hFound' => exact ⟨(hFound.unique hFound').1, rfl⟩

/-! ## What is found -/

/-- The predicate does not hold again behind an index of the range at which it fails. -/
def Falling (pred : Nat → Bool) (first last : Nat) : Prop :=
  ∀ i j, first ≤ i → i ≤ j → j < last → pred j = true → pred i = true

/-- A boundary of the predicate in a range: an index at which it holds, with the end of the range or
an index at which it fails behind.  There need be none if the predicate fails from the start. -/
def IsBoundary (pred : Nat → Bool) (first last : Nat) : Option Nat → Prop
  | some i => first ≤ i ∧ i < last ∧ pred i = true ∧ (i + 1 = last ∨ pred (i + 1) = false)
  | none => last ≤ first ∨ pred first = false

/-- The last index of a range at which the predicate holds, if there is one. -/
def IsLast (pred : Nat → Bool) (first last : Nat) : Option Nat → Prop
  | some i => IsGreatest {j | first ≤ j ∧ j < last ∧ pred j = true} i
  | none => ∀ j, first ≤ j → j < last → pred j = false

theorem upperBound_isBoundary (pred : Nat → Bool) (first last : Nat) :
    IsBoundary pred first last (upperBound first last pred) := by
  obtain ⟨hBefore, hAt⟩ := bisect_boundary pred first last
  unfold upperBound
  by_cases hMoved : first < bisect pred first last
  · have hSome : first ≤ last := by
      by_contra hEmpty
      rw [bisect, if_neg (by omega)] at hMoved
      omega
    obtain ⟨_, hEnd⟩ := bisect_bounds pred first last hSome
    simp only [if_pos hMoved]
    refine ⟨by omega, by omega, hBefore.resolve_left (by omega), ?_⟩
    rw [Nat.sub_add_cancel (by omega)]
    exact hAt.imp_left (by omega)
  · simp only [if_neg hMoved]
    by_cases hEmpty : last ≤ first
    · exact .inl hEmpty
    · obtain ⟨hStart, _⟩ := bisect_bounds pred first last (by omega)
      obtain hFirst : bisect pred first last = first := by omega
      rw [hFirst] at hAt
      exact hAt.imp_left (by omega)

/-- Where a predicate fails for good once it fails, only the last index at which it holds is a
boundary. -/
theorem IsBoundary.isLast {pred : Nat → Bool} {first last : Nat} {r : Option Nat}
    (hBoundary : IsBoundary pred first last r) (hFalling : Falling pred first last) :
    IsLast pred first last r := by
  -- in both cases an index behind the boundary at which the predicate held would make it hold there
  cases r with
  | some i =>
      obtain ⟨hLow, hHigh, hHolds, hBehind⟩ := hBoundary
      refine ⟨⟨hLow, hHigh, hHolds⟩, fun j hj => ?_⟩
      obtain ⟨_, hjHigh, hjHolds⟩ := hj
      by_contra hBeyond
      have hFails := hBehind.resolve_left (by omega)
      rw [hFalling (i + 1) j (by omega) (by omega) hjHigh hjHolds] at hFails
      cases hFails
  | none =>
      intro j hLow hHigh
      have hFails := hBoundary.resolve_left (by omega)
      rw [← Bool.not_eq_true]
      intro hHolds
      rw [hFalling first j (Nat.le_refl first) hLow hHigh hHolds] at hFails
      cases hFails

theorem IsLast.unique {pred : Nat → Bool} {first last : Nat} {r s : Option Nat}
    (hFirst : IsLast pred first last r) (hSecond : IsLast pred first last s) : r = s := by
  have hContra : ∀ {i : Nat}, IsLast pred first last (some i) → ¬IsLast pred first last none := by
    intro i hLast hNone
    obtain ⟨⟨hLow, hHigh, hHolds⟩, _⟩ := hLast
    rw [hNone i hLow hHigh] at hHolds
    cases hHolds
  cases r with
  | some i =>
      cases s with
      | some j => exact congrArg some (IsGreatest.unique hFirst hSecond)
      | none => exact absurd hSecond (hContra hFirst)
  | none =>
      cases s with
      | some j => exact absurd hFirst (hContra hSecond)
      | none => rfl

/-- The pair that is found starts at the index that is found, as far as a pair starts there. -/
theorem interval_eq_elim {size : Nat} (pred : Nat → Bool) (hSize : 2 ≤ size) :
    interval size pred = .ok ((upperBound 0 size pred).elim 0 (min · (size - 2))) := by
  rw [interval_eq_min pred hSize]
  unfold upperBound
  by_cases hMoved : 0 < bisect pred 0 size
  · simp only [if_pos hMoved, Option.elim_some]
  · simp only [if_neg hMoved, Option.elim_none]
    rw [show bisect pred 0 size = 0 by omega, Nat.zero_sub, Nat.zero_min]

/-- **The search finds a boundary.**  On words, the search for the last index has exactly one run for
every range and every predicate; it evaluates the predicate inside the range only, and its result is
a boundary, the last index at which the predicate holds if that fails for good once it fails.  Among
at least two entries the search for a pair of neighbours always finds one that lies inside, the pair
that starts at the last index as far as a pair starts there, or the first pair if there is no such
index. -/
theorem search_finds_boundary (pred : Nat → Bool) :
    (∀ first last, first < UInt64.size → last < UInt64.size →
      ∃ probes, (∀ ps r, Finds pred first last ps r ↔
          ps = probes ∧ r = upperBound first last pred) ∧
        ∀ i ∈ probes, first ≤ i ∧ i < last) ∧
      (∀ first last, IsBoundary pred first last (upperBound first last pred) ∧
        (Falling pred first last → ∀ r, upperBound first last pred = r ↔
          IsLast pred first last r)) ∧
      ∀ size, 2 ≤ size → ∃ k, interval size pred = .ok k ∧ k ≤ size - 2 ∧
        (size < UInt64.size → ∃ probes, (∀ ps j, FindsInterval pred size ps j ↔
            ps = probes ∧ j = k) ∧ ∀ i ∈ probes, i < size) ∧
        (Falling pred 0 size → ∀ r, IsLast pred 0 size r →
          k = match r with
            | some i => min i (size - 2)
            | none => 0) := by
  have hLast : ∀ first last, Falling pred first last →
      IsLast pred first last (upperBound first last pred) := fun first last hFalling =>
    (upperBound_isBoundary pred first last).isLast hFalling
  refine ⟨?_, ?_, ?_⟩
  · intro first last hFirstWord hLastWord
    obtain ⟨probes, hFinds, hInside⟩ := exists_finds pred hFirstWord hLastWord
    refine ⟨probes, fun ps r => ⟨fun hOther => hOther.unique hFinds, ?_⟩, hInside⟩
    rintro ⟨rfl, rfl⟩
    exact hFinds
  · intro first last
    refine ⟨upperBound_isBoundary pred first last, fun hFalling r => ⟨?_, ?_⟩⟩
    · rintro rfl
      exact hLast first last hFalling
    · exact (hLast first last hFalling).unique
  · intro size hSize
    refine ⟨_, interval_eq_elim pred hSize, ?_, ?_, ?_⟩
    · cases upperBound 0 size pred with
      | none => exact Nat.zero_le _
      | some i => exact Nat.min_le_right i _
    · intro hWord
      obtain ⟨probes, hFinds, hInside⟩ := exists_findsInterval pred hSize hWord
      refine ⟨probes, fun ps j => ⟨fun hOther => hOther.unique hFinds, ?_⟩, hInside⟩
      rintro ⟨rfl, rfl⟩
      exact hFinds
    · intro hFalling r hr
      obtain rfl := (hLast 0 size hFalling).unique hr
      cases upperBound 0 size pred <;> rfl

/-- The indices below four in `[2, 6)`: the last one is found, among five entries the last pair, and
both searches look inside only. -/
theorem search_finds_boundary_below_four :
    upperBound 2 6 (· < 4) = some 3 ∧ interval 5 (· < 4) = .ok 3 ∧
      (∃ probes, Finds (· < 4) 2 6 probes (some 3) ∧ ∀ i ∈ probes, 2 ≤ i ∧ i < 6) ∧
      ∃ probes, FindsInterval (· < 4) 5 probes 3 ∧ ∀ i ∈ probes, i < 5 := by
  obtain ⟨hWords, hRange, hInterval⟩ := search_finds_boundary (· < 4)
  have hFalling : ∀ first last, Falling (· < 4) first last := by
    intro first last i j _ hLe _ hHolds
    simp only [decide_eq_true_eq] at hHolds ⊢
    omega
  have hGreatest : ∀ first last, first ≤ 3 → 4 ≤ last → IsLast (· < 4) first last (some 3) := by
    intro first last hFirst hLast
    refine ⟨⟨hFirst, hLast, rfl⟩, ?_⟩
    rintro j ⟨_, _, hHolds⟩
    simp only [decide_eq_true_eq] at hHolds
    omega
  have hFound := ((hRange 2 6).2 (hFalling 2 6) (some 3)).mpr (hGreatest 2 6 (by decide) (by decide))
  obtain ⟨probes, hFinds, hInside⟩ := hWords 2 6 (by decide) (by decide)
  obtain ⟨k, hPair, _, hPairWords, hPairLast⟩ := hInterval 5 (by decide)
  obtain rfl := hPairLast (hFalling 0 5) (some 3) (hGreatest 0 5 (by decide) (by decide))
  obtain ⟨pairProbes, hPairFinds, hPairInside⟩ := hPairWords (by decide)
  exact ⟨hFound, hPair, ⟨probes, (hFinds _ _).mpr ⟨rfl, hFound.symm⟩, hInside⟩,
    pairProbes, (hPairFinds _ _).mpr ⟨rfl, rfl⟩, hPairInside⟩

end StepSampling.Search
