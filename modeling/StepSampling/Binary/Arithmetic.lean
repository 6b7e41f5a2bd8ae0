import StepSampling.Binary.Basic

/-!
# Arithmetic on binary numbers

Addition, subtraction, multiplication and division, and the conversions between formats and to
natural numbers.  Each operation settles NaN, the infinities and division by zero first; what is
left is an exact result, a natural number times a power of two or a quotient, which is rounded once.
-/

namespace StepSampling.Binary

variable {F : Format}

/-- A finite number as a whole count of `2 ^ e` units, where `e` is at most its shift. -/
def aligned (negative : Bool) (m : Magnitude F) (e : Nat) : Int :=
  let count := m.significand <<< (m.shift - e)
  if negative then -(count : Int) else count

/-- The sum of two finite numbers.  An exact zero is negative only if both arguments are. -/
def addFinite (s : Bool) (a : Magnitude F) (t : Bool) (b : Magnitude F) : Binary F :=
  let e := min a.shift b.shift
  let sum := aligned s a e + aligned t b e
  .signed (if sum = 0 then s && t else decide (sum < 0)) (.ofDyadic F sum.natAbs e)

/-- The rounded sum. -/
def add : Binary F → Binary F → Binary F
  | .nan, _ => .nan
  | _, .nan => .nan
  | .signed s a, .signed t b =>
    if a.isInfinite then
      if b.isInfinite && s != t then .nan else .signed s a
    else if b.isInfinite then .signed t b
    else addFinite s a t b

/-- The rounded difference. -/
def sub (x y : Binary F) : Binary F := add x (-y)

/-- The rounded product. -/
def mul : Binary F → Binary F → Binary F
  | .nan, _ => .nan
  | _, .nan => .nan
  | .signed s a, .signed t b =>
    if a.isInfinite || b.isInfinite then
      if a.isZero || b.isZero then .nan else .signed (s != t) .infinity
    else
      .signed (s != t)
        (.ofDyadic F (a.significand * b.significand) ((a.shift + b.shift : Nat) - F.scale))

/-- The rounded quotient of two finite magnitudes, the second one not zero.  The common power of two
is cancelled. -/
def quotient (a b : Magnitude F) : Magnitude F :=
  .ofQuotient F (a.significand <<< (a.shift + F.scale - b.shift))
    (b.significand <<< (b.shift - (a.shift + F.scale)))

/-- The rounded quotient. -/
def div : Binary F → Binary F → Binary F
  | .nan, _ => .nan
  | _, .nan => .nan
  | .signed s a, .signed t b =>
    if a.isInfinite then
      if b.isInfinite then .nan else .signed (s != t) .infinity
    else if b.isInfinite then .signed (s != t) .zero
    else if b.isZero then
      if a.isZero then .nan else .signed (s != t) .infinity
    else .signed (s != t) (quotient a b)

instance : Add (Binary F) := ⟨add⟩

instance : Sub (Binary F) := ⟨sub⟩

instance : Mul (Binary F) := ⟨mul⟩

instance : Div (Binary F) := ⟨div⟩

/-- The number without its sign. -/
def abs : Binary F → Binary F
  | .nan => .nan
  | .signed _ m => .signed false m

/-- The nearest number of another format. -/
def convert (G : Format) : Binary F → Binary G
  | .nan => .nan
  | .signed s m =>
    if m.isInfinite then .signed s .infinity
    else .signed s (.ofDyadic G m.significand ((m.shift + G.scale : Nat) - F.scale))

/-- The whole part of a finite magnitude. -/
def wholePart (m : Magnitude F) : Nat :=
  if F.scale ≤ m.shift then m.significand <<< (m.shift - F.scale)
  else m.significand >>> (F.scale - m.shift)

/-- The largest value of a 64-bit word. -/
def wordMax : Nat := UInt64.size - 1

/-- The whole part as a 64-bit word: what does not fit saturates, and NaN gives zero. -/
def toWord : Binary F → Nat
  | .nan => 0
  | .signed true _ => 0
  | .signed false m =>
    if m.isInfinite then wordMax else min (wholePart m) wordMax

end StepSampling.Binary
