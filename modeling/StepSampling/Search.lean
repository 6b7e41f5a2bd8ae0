import StepSampling.Fault
import StepSampling.Ordering

/-!
# Bisection

`upperBound` looks for the last index of a half-open range at which a predicate holds, for a
predicate that stays false once it has turned false.  It halves the range, and so ends for every
predicate; on one that is not monotone it still returns a boundary, an index at which the predicate
holds and behind which it fails or the range ends.

`interval` uses it on the entries of a list to find the pair of neighbours that brackets a value:
its result is always the first index of such a pair.

A predicate that reads a list breaks off with a fault where it reads behind the end, and the search
breaks off with it.  The searches with such a predicate are `bisectM`, `upperBoundM` and `intervalM`.
-/

namespace StepSampling.Search

/-- The middle of a range, never its end. -/
def middle (lo hi : Nat) : Nat := lo + (hi - lo) / 2

/-- The first index at which the predicate fails, by bisection of `[lo, hi)`. -/
def bisect (pred : Nat → Bool) (lo hi : Nat) : Nat :=
  if lo < hi then
    if pred (middle lo hi) then bisect pred (middle lo hi + 1) hi
    else bisect pred lo (middle lo hi)
  else lo
termination_by hi - lo
decreasing_by all_goals simp only [middle]; omega

/-- The last index of `[first, last)` at which the predicate holds. -/
def upperBound (first last : Nat) (pred : Nat → Bool) : Option Nat :=
  let stop := bisect pred first last
  if first < stop then some (stop - 1) else none

/-- The last index at which the predicate holds, as the start of a pair of neighbours among `size`
entries: the first pair if it holds nowhere, the last pair if it holds everywhere. -/
def interval (size : Nat) (pred : Nat → Bool) : Except Fault Nat :=
  if size < 2 then .error .noInterval
  else
    match upperBound 0 size pred with
    | none => .ok 0
    | some i => .ok (clamp i 0 (size - 2))

/-! ## Predicates that can break off -/

/-- `bisect` with a predicate that can break off. -/
def bisectM (pred : Nat → Except Fault Bool) (lo hi : Nat) : Except Fault Nat :=
  if lo < hi then
    match pred (middle lo hi) with
    | .error f => .error f
    | .ok true => bisectM pred (middle lo hi + 1) hi
    | .ok false => bisectM pred lo (middle lo hi)
  else .ok lo
termination_by hi - lo
decreasing_by all_goals simp only [middle]; omega

/-- `upperBound` with a predicate that can break off. -/
def upperBoundM (first last : Nat) (pred : Nat → Except Fault Bool) : Except Fault (Option Nat) :=
  match bisectM pred first last with
  | .error f => .error f
  | .ok stop => .ok (if first < stop then some (stop - 1) else none)

/-- `interval` with a predicate that can break off. -/
def intervalM (size : Nat) (pred : Nat → Except Fault Bool) : Except Fault Nat :=
  if size < 2 then .error .noInterval
  else
    match upperBoundM 0 size pred with
    | .error f => .error f
    | .ok none => .ok 0
    | .ok (some i) => .ok (clamp i 0 (size - 2))

end StepSampling.Search
