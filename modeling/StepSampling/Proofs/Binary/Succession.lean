import Mathlib.Logic.Function.Iterate
import Mathlib.Order.Cover
import StepSampling.Proofs.Binary.Neighbours
import StepSampling.Proofs.Binary.Nonnegative

/-!
# Neighbours one after another

The keys of the numbers are the whole numbers from the one infinity to the other, and a step to a
neighbour moves the key by one.  So nothing lies between neighbours, a step back returns to the same
value, and the walk up from a number meets every number above it, the walk down every number below it.
The two zeros share a key, and a walk passes only the one that it comes to first: going up the negative
zero, going down the positive one.

On bit patterns the same steps are additions and subtractions of one.  Patterns count magnitudes, so the
step away from zero is the addition for both signs, and zero is given the sign of the step beforehand.
`upOnPattern` and `downOnPattern` carry that out on 32-bit words and give up where a word would wrap
around.  That never happens to a number, and both find the neighbours.
-/

namespace StepSampling

namespace Binary

variable {F : Format} {x y : Binary F}

/-! ## Numbers and their keys -/

/-- Numbers of one key have the same value. -/
theorem equals_iff :
    x.equals y = true ↔ x.isNaN = false ∧ y.isNaN = false ∧ x.key = y.key := by
  rw [equals, Bool.and_eq_true, decide_eq_true_eq, decide_eq_true_eq]
  constructor
  · rintro ⟨⟨hx, hy, hLe⟩, _, _, hGe⟩
    exact ⟨hx, hy, Int.le_antisymm hLe hGe⟩
  · rintro ⟨hx, hy, hKey⟩
    exact ⟨⟨hx, hy, hKey.le⟩, hy, hx, hKey.ge⟩

theorem equals_eq_false (hKey : x.key ≠ y.key) : x.equals y = false :=
  Bool.eq_false_iff.mpr fun hEquals => hKey (equals_iff.mp hEquals).2.2

/-- A key other than that of the zeros belongs to one number. -/
theorem eq_of_key (hx : x.isNaN = false) (hy : y.isNaN = false) (hKey : x.key = y.key)
    (hNonzero : y.key ≠ 0) : x = y := by
  refine eq_of_value hx hy ?_ (value_eq_iff_key.mpr hKey)
  match x, y with
  | .nan, _ => cases hx
  | .signed _ _, .nan => cases hy
  | .signed s a, .signed t b =>
      cases s <;> cases t <;> simp only [key] at hKey hNonzero <;> first | rfl | omega

theorem eq_zero_or (hx : x.isNaN = false) (hKey : x.key = 0) : x = zero ∨ x = -zero := by
  have hValue : x.value = (zero : Binary F).value := value_eq_iff_key.mpr hKey
  cases hSign : x.negative with
  | false => exact .inl (eq_of_value hx rfl hSign hValue)
  | true => exact .inr (eq_of_value hx rfl hSign hValue)

/-- Below positive infinity there is room for a step up. -/
theorem key_lt_top (hx : x.isNaN = false) (hBelow : x ≠ infinity) : x.key < F.top := by
  have hTop := F.hidden_lt_top
  refine (key_le_top x).lt_of_ne fun hKey => hBelow ?_
  exact eq_of_key hx rfl hKey (show (F.top : Int) ≠ 0 by omega)

/-- Above negative infinity there is room for a step down. -/
theorem neg_top_lt_key (hx : x.isNaN = false) (hAbove : x ≠ -infinity) : -(F.top : Int) < x.key := by
  have hTop := F.hidden_lt_top
  refine (neg_top_le_key x).lt_of_ne fun hKey => hAbove ?_
  exact eq_of_key hx rfl hKey.symm (show -(F.top : Int) ≠ 0 by omega)

/-! ## One step -/

/-- Nothing lies between two numbers whose keys follow one another. -/
theorem covBy_of_key (hx : x.isNaN = false) (hy : y.isNaN = false) (hKey : y.key = x.key + 1) :
    x ⋖ y := by
  refine ⟨⟨hx, hy, by omega⟩, ?_⟩
  intro z hAbove hBelow
  have hLow := hAbove.2.2
  have hHigh := hBelow.2.2
  omega

theorem covBy_up (hx : x.isNaN = false) (hBelow : x ≠ infinity) : x ⋖ x.up := by
  have hRoom := key_lt_top hx hBelow
  apply covBy_of_key hx (by rw [isNaN_up, hx])
  rw [key_up x hx]
  omega

theorem down_covBy (hx : x.isNaN = false) (hAbove : x ≠ -infinity) : x.down ⋖ x := by
  have hRoom := neg_top_lt_key hx hAbove
  apply covBy_of_key (by rw [isNaN_down, hx]) hx
  rw [key_down x hx]
  omega

/-- The step down from the number above leads back to the same value. -/
theorem equals_down_up (hx : x.isNaN = false) (hBelow : x ≠ infinity) :
    x.up.down.equals x = true := by
  have hNumber : x.up.down.isNaN = false := by rw [isNaN_down, isNaN_up, hx]
  exact equals_iff.mpr ⟨hNumber, hx, key_down_up hx (key_lt_top hx hBelow)⟩

/-- The step up from the number below leads back to the same value. -/
theorem equals_up_down (hx : x.isNaN = false) (hAbove : x ≠ -infinity) :
    x.down.up.equals x = true := by
  have hNumber : x.down.up.isNaN = false := by rw [isNaN_up, isNaN_down, hx]
  exact equals_iff.mpr ⟨hNumber, hx, key_up_down hx (neg_top_lt_key hx hAbove)⟩

theorem up_infinity : (infinity : Binary F).up = infinity := by
  cases F <;> decide

theorem down_neg_infinity : (-infinity : Binary F).down = -infinity := by
  cases F <;> decide

/-- A negative number keeps its sign in a step up, also the one that leads to zero. -/
theorem negative_up (hBelow : x.key < 0) : x.up.negative = true := by
  cases x with
  | nan => cases hBelow
  | signed s m =>
      cases s with
      | false =>
          simp only [key] at hBelow
          omega
      | true =>
          simp only [key] at hBelow
          rw [up_signed_true (by omega)]
          rfl

/-! ## Step after step -/

/-- Every step up moves the key by one, until infinity is reached. -/
theorem key_iterate_up (hx : x.isNaN = false) (k : Nat) :
    (up^[k] x).isNaN = false ∧ (up^[k] x).key = min (x.key + k) F.top := by
  induction k with
  | zero =>
      have hTop := key_le_top x
      refine ⟨hx, ?_⟩
      show x.key = min (x.key + (0 : Nat)) F.top
      omega
  | succ k ih =>
      obtain ⟨hNumber, hKey⟩ := ih
      rw [Function.iterate_succ_apply']
      refine ⟨by rw [isNaN_up, hNumber], ?_⟩
      rw [key_up _ hNumber, hKey]
      omega

/-- The walk up reaches the value of every number above, and the number itself unless it is the positive
zero. -/
theorem exists_iterate_up (hLt : x < y) :
    ∃ k, (up^[k] x).equals y = true ∧ (y ≠ zero → up^[k] x = y) := by
  obtain ⟨hx, hy, hKeys⟩ := hLt
  have hTop := key_le_top y
  obtain ⟨k, hSteps⟩ : ∃ k : Nat, y.key = x.key + (k + 1 : Nat) :=
    ⟨(y.key - x.key - 1).toNat, by omega⟩
  obtain ⟨hNumber, hReached⟩ := key_iterate_up hx (k + 1)
  have hKey : (up^[k + 1] x).key = y.key := by omega
  refine ⟨k + 1, equals_iff.mpr ⟨hNumber, hy, hKey⟩, fun hNotZero => ?_⟩
  by_cases hZero : y.key = 0
  · -- the last step leads from the greatest negative number to the negative zero
    have hBefore := (key_iterate_up hx k).2
    have hNegative : (up^[k + 1] x).negative = true := by
      rw [Function.iterate_succ_apply']
      exact negative_up (by omega)
    obtain rfl : y = -zero := (eq_zero_or hy hZero).resolve_left hNotZero
    exact eq_of_value hNumber hy hNegative (value_eq_iff_key.mpr hKey)
  · exact eq_of_key hNumber hy hKey hZero

protected theorem neg_neg (x : Binary F) : - -x = x := by
  match x with
  | .nan => rfl
  | .signed false m => rfl
  | .signed true m => rfl

/-- The walk down is the walk up on the other side of zero. -/
theorem iterate_down (x : Binary F) (k : Nat) : down^[k] x = -up^[k] (-x) := by
  induction k with
  | zero => exact (Binary.neg_neg x).symm
  | succ k ih =>
      rw [Function.iterate_succ_apply', Function.iterate_succ_apply', ih, down, Binary.neg_neg]

/-- The walk down reaches the value of every number below, and the number itself unless it is the
negative zero. -/
theorem exists_iterate_down (hLt : y < x) :
    ∃ k, (down^[k] x).equals y = true ∧ (y ≠ -zero → down^[k] x = y) := by
  obtain ⟨hy, hx, hKeys⟩ := hLt
  have hReflected : -x < -y := by
    refine ⟨by rw [isNaN_neg, hx], by rw [isNaN_neg, hy], ?_⟩
    rw [key_neg, key_neg]
    omega
  obtain ⟨k, hEquals, hSame⟩ := exists_iterate_up hReflected
  refine ⟨k, ?_, fun hNotZero => ?_⟩
  · obtain ⟨hNumber, _, hKey⟩ := equals_iff.mp hEquals
    rw [key_neg] at hKey
    refine equals_iff.mpr ⟨by rw [iterate_down, isNaN_neg, hNumber], hy, ?_⟩
    rw [iterate_down, key_neg, hKey]
    omega
  · rw [iterate_down, hSame, Binary.neg_neg]
    intro hZero
    exact hNotZero (by rw [← hZero, Binary.neg_neg])

/-! ## Bit patterns -/

/-- A number is read back from its bit pattern. -/
theorem ofBits_toBits (x : Binary F) : ofBits F x.toBits = x := by
  have hTop := F.top_lt_signBit
  match x with
  | .nan => cases F <;> decide
  | .signed s m =>
      have hCode := m.code_le_top
      have hRest : (signed s m).toBits % F.signBit = m.code := by
        show ((if s then F.signBit else 0) + m.code) % F.signBit = m.code
        cases s with
        | false => rw [if_neg Bool.false_ne_true, Nat.zero_add, Nat.mod_eq_of_lt (by omega)]
        | true => rw [if_pos rfl, Nat.add_mod_left, Nat.mod_eq_of_lt (by omega)]
      have hSign : ((signed s m).toBits / F.signBit % 2 == 1) = s := by
        show (((if s then F.signBit else 0) + m.code) / F.signBit % 2 == 1) = s
        cases s with
        | false =>
            rw [if_neg Bool.false_ne_true, Nat.zero_add, Nat.div_eq_of_lt (by omega)]
            rfl
        | true =>
            rw [if_pos rfl, Nat.add_div_left _ (by omega), Nat.div_eq_of_lt (by omega)]
            rfl
      unfold ofBits
      dsimp only
      rw [dif_pos (hRest.trans_le hCode), hSign]
      exact congrArg (signed s) (Magnitude.eq_of_code hRest)

end Binary

namespace Single

/-! ## Steps on bit patterns -/

/-- The 32-bit word that holds a number. -/
def pattern (x : Single) : UInt32 := .ofNat x.toBits

/-- The number that a 32-bit word holds. -/
def ofPattern (p : UInt32) : Single := .ofBits .single p.toNat

/-- The word that follows, unless the addition wraps around. -/
def following (p : UInt32) : Option UInt32 := if p < p + 1 then some (p + 1) else none

/-- The word that precedes, unless the subtraction wraps around. -/
def preceding (p : UInt32) : Option UInt32 := if p - 1 < p then some (p - 1) else none

/-- The step up on the bit pattern.  Positive infinity stays, and the negative zero becomes the
positive one before its pattern is counted. -/
def upOnPattern (x : Single) : Option Single :=
  if x.isFinite = false ∧ Binary.zero < x then some x
  else
    let y := if x.equals (-Binary.zero) then Binary.zero else x
    (if Binary.zero ≤ y then following (pattern y) else preceding (pattern y)).map ofPattern

/-- The step down on the bit pattern.  Negative infinity stays, and the positive zero becomes the
negative one before its pattern is counted. -/
def downOnPattern (x : Single) : Option Single :=
  if x.isFinite = false ∧ x < Binary.zero then some x
  else
    let y := if x.equals Binary.zero then -Binary.zero else x
    (if Binary.zero < y then preceding (pattern y) else following (pattern y)).map ofPattern

/-! ### Patterns -/

/-- No pattern is too long for the word. -/
theorem toBits_lt (x : Single) : x.toBits < 2 ^ 32 := by
  match x with
  | .nan => decide
  | .signed s m =>
      have hTop : m.code ≤ 0x7f800000 := m.code_le_top
      show (if s then 0x80000000 else 0) + m.code < 2 ^ 32
      split <;> omega

theorem toNat_pattern (x : Single) : (pattern x).toNat = x.toBits :=
  UInt32.toNat_ofNat_of_lt' (toBits_lt x)

/-- Every number is held by its pattern. -/
theorem ofPattern_pattern (x : Single) : ofPattern (pattern x) = x := by
  rw [ofPattern, toNat_pattern, Binary.ofBits_toBits]

/-! ### Counting -/

theorem following_eq {p q : UInt32} (hNext : q.toNat = p.toNat + 1) : following p = some q := by
  have hOne : (1 : UInt32).toNat = 1 := rfl
  have hWord := q.toNat_lt
  have hSum : p + 1 = q := by
    rw [← UInt32.toNat_inj, UInt32.toNat_add]
    omega
  rw [following, hSum, if_pos (UInt32.lt_iff_toNat_lt.mpr (by omega))]

theorem preceding_eq {p q : UInt32} (hNext : p.toNat = q.toNat + 1) : preceding p = some q := by
  have hOne : (1 : UInt32).toNat = 1 := rfl
  have hDifference : p - 1 = q := by
    rw [← UInt32.toNat_inj, UInt32.toNat_sub_of_le _ _ (UInt32.le_iff_toNat_le.mpr (by omega))]
    omega
  rw [preceding, hDifference, if_pos (UInt32.lt_iff_toNat_lt.mpr (by omega))]

/-- For both signs, counting up leads away from zero. -/
theorem map_following (s : Bool) {m : Magnitude .single} (hBelow : m.code < Format.single.top) :
    (following (pattern (.signed s m))).map ofPattern = some (.signed s m.succ) := by
  have hNext : (pattern (.signed s m.succ)).toNat = (pattern (.signed s m)).toNat + 1 := by
    rw [toNat_pattern, toNat_pattern]
    show _ + min (m.code + 1) Format.single.top = _ + m.code + 1
    omega
  rw [following_eq hNext, Option.map_some, ofPattern_pattern]

/-- For both signs, counting down leads towards zero. -/
theorem map_preceding (s : Bool) {m : Magnitude .single} (hNonzero : m.code ≠ 0) :
    (preceding (pattern (.signed s m))).map ofPattern = some (.signed s m.pred) := by
  have hNext : (pattern (.signed s m)).toNat = (pattern (.signed s m.pred)).toNat + 1 := by
    have hTop := m.code_le_top
    rw [toNat_pattern, toNat_pattern]
    show _ + m.code = _ + min (m.code - 1) Format.single.top + 1
    omega
  rw [preceding_eq hNext, Option.map_some, ofPattern_pattern]

/-- Apart from zeros and positive infinity, the step up counts the pattern as it is. -/
theorem upOnPattern_of_nonzero {x : Single} (hNumber : x.isNaN = false) (hNonzero : x.key ≠ 0)
    (hRoom : x.key < Format.single.top) :
    upOnPattern x =
      (if Binary.zero ≤ x then following (pattern x) else preceding (pattern x)).map ofPattern := by
  have hZeroKey : (Binary.zero : Single).key = 0 := rfl
  have hGoesOn : ¬(x.isFinite = false ∧ Binary.zero < x) := by
    rintro ⟨hInfinite, hPos⟩
    have hKey := hPos.2.2
    rw [(Binary.isFinite_iff x).mpr ⟨hNumber, by omega⟩] at hInfinite
    cases hInfinite
  rw [upOnPattern, if_neg hGoesOn, Binary.equals_eq_false hNonzero]
  rfl

/-- Apart from zeros and negative infinity, the step down counts the pattern as it is. -/
theorem downOnPattern_of_nonzero {x : Single} (hNumber : x.isNaN = false) (hNonzero : x.key ≠ 0)
    (hRoom : -(Format.single.top : Int) < x.key) :
    downOnPattern x =
      (if Binary.zero < x then preceding (pattern x) else following (pattern x)).map ofPattern := by
  have hZeroKey : (Binary.zero : Single).key = 0 := rfl
  have hGoesOn : ¬(x.isFinite = false ∧ x < Binary.zero) := by
    rintro ⟨hInfinite, hNeg⟩
    have hKey := hNeg.2.2
    rw [(Binary.isFinite_iff x).mpr ⟨hNumber, by omega⟩] at hInfinite
    cases hInfinite
  rw [downOnPattern, if_neg hGoesOn, Binary.equals_eq_false hNonzero]
  rfl

/-- The step up on the bit pattern does not wrap around, and it finds the number above. -/
theorem upOnPattern_eq (x : Single) (hNumber : x.isNaN = false) : upOnPattern x = some x.up := by
  by_cases hZero : x.key = 0
  · rcases Binary.eq_zero_or hNumber hZero with rfl | rfl <;> decide
  by_cases hInfinity : x = Binary.infinity
  · subst hInfinity
    decide
  have hRoom := Binary.key_lt_top hNumber hInfinity
  rw [upOnPattern_of_nonzero hNumber hZero hRoom]
  cases x with
  | nan => cases hNumber
  | signed s m =>
      cases s with
      | false =>
          have hPositive : Binary.zero ≤ (.signed false m : Single) :=
            ⟨rfl, rfl, Int.natCast_nonneg m.code⟩
          simp only [Binary.key] at hRoom
          rw [if_pos hPositive]
          exact map_following false (by omega)
      | true =>
          simp only [Binary.key] at hZero
          have hCode : m.code ≠ 0 := by omega
          have hNegative : ¬Binary.zero ≤ (.signed true m : Single) := by
            rintro ⟨_, _, hKey⟩
            change (0 : Int) ≤ -m.code at hKey
            omega
          rw [if_neg hNegative, map_preceding true hCode, Binary.up_signed_true hCode]

/-- The step down on the bit pattern does not wrap around, and it finds the number below. -/
theorem downOnPattern_eq (x : Single) (hNumber : x.isNaN = false) :
    downOnPattern x = some x.down := by
  by_cases hZero : x.key = 0
  · rcases Binary.eq_zero_or hNumber hZero with rfl | rfl <;> decide
  by_cases hInfinity : x = -Binary.infinity
  · subst hInfinity
    decide
  have hRoom := Binary.neg_top_lt_key hNumber hInfinity
  rw [downOnPattern_of_nonzero hNumber hZero hRoom]
  cases x with
  | nan => cases hNumber
  | signed s m =>
      cases s with
      | false =>
          simp only [Binary.key] at hZero
          have hCode : m.code ≠ 0 := by omega
          have hPositive : Binary.zero < (.signed false m : Single) := by
            refine ⟨rfl, rfl, ?_⟩
            change (0 : Int) < m.code
            omega
          rw [if_pos hPositive, map_preceding false hCode, Binary.down_signed_false hCode]
      | true =>
          simp only [Binary.key] at hZero hRoom
          have hNegative : ¬Binary.zero < (.signed true m : Single) := by
            rintro ⟨_, _, hKey⟩
            change (0 : Int) < -m.code at hKey
            omega
          rw [if_neg hNegative]
          exact map_following true (by omega)

/-- **Neighbours are adjacent.**  For a number other than NaN, the steps up and down give numbers again.
Unless the number is the infinity in the direction of the step, nothing lies between it and its
neighbour, and the step back leads to its value; that infinity stays.  The bit pattern is never counted
past the ends of the 32-bit words.  Step after step the walk up meets the value of every number above
and the walk down that of every number below, and the number itself unless it is the zero that the walk
does not come to first. -/
theorem neighbours_adjacent (v : Single) (hNumber : v.isNaN = false) :
    (v.up.isNaN = false ∧ v.down.isNaN = false) ∧
      (v ≠ Binary.infinity → v ⋖ v.up ∧ v.up.down.equals v = true) ∧
      (v ≠ -Binary.infinity → v.down ⋖ v ∧ v.down.up.equals v = true) ∧
      (v = Binary.infinity → v.up = v) ∧ (v = -Binary.infinity → v.down = v) ∧
      (upOnPattern v = some v.up ∧ downOnPattern v = some v.down) ∧
      ∀ w : Single,
        (v < w → ∃ k, (Binary.up^[k] v).equals w = true ∧
          (w ≠ Binary.zero → Binary.up^[k] v = w)) ∧
        (w < v → ∃ k, (Binary.down^[k] v).equals w = true ∧
          (w ≠ -Binary.zero → Binary.down^[k] v = w)) := by
  refine ⟨⟨?_, ?_⟩, ?_, ?_, ?_, ?_, ⟨upOnPattern_eq v hNumber, downOnPattern_eq v hNumber⟩, ?_⟩
  · rw [Binary.isNaN_up, hNumber]
  · rw [Binary.isNaN_down, hNumber]
  · intro hBelow
    exact ⟨Binary.covBy_up hNumber hBelow, Binary.equals_down_up hNumber hBelow⟩
  · intro hAbove
    exact ⟨Binary.down_covBy hNumber hAbove, Binary.equals_up_down hNumber hAbove⟩
  · rintro rfl
    exact Binary.up_infinity
  · rintro rfl
    exact Binary.down_neg_infinity
  · intro w
    exact ⟨Binary.exists_iterate_up, Binary.exists_iterate_down⟩

/-- The neighbours of the negative zero have the least magnitude.  The step back from the one above ends
at the positive zero, and the walks reach one and its opposite.  Infinity is its own neighbour. -/
theorem neighbours_adjacent_negative_zero :
    ∃ v : Single, v = -Binary.zero ∧ v ⋖ v.up ∧ v.up = .ofBits .single 1 ∧
      v.down ⋖ v ∧ v.down = .ofBits .single 0x80000001 ∧
      v.up.down.equals v = true ∧ v.up.down = Binary.zero ∧
      upOnPattern v = some (.ofBits .single 1) ∧
      (v < Binary.one ∧ ∃ k, Binary.up^[k] v = Binary.one) ∧
      (-Binary.one < v ∧ ∃ k, Binary.down^[k] v = -Binary.one) ∧
      (Binary.infinity : Single).up = Binary.infinity := by
  have hBelow : (-Binary.zero : Single) ≠ Binary.infinity := by decide
  have hAbove : (-Binary.zero : Single) ≠ -Binary.infinity := by decide
  have hOne : (-Binary.zero : Single) < Binary.one := by decide
  have hMinusOne : -Binary.one < (-Binary.zero : Single) := by decide
  obtain ⟨_, hUp, hDown, _, _, ⟨hPattern, _⟩, hWalks⟩ := neighbours_adjacent (-Binary.zero) rfl
  obtain ⟨_, _, _, hStays, _⟩ := neighbours_adjacent Binary.infinity rfl
  obtain ⟨hCovered, hBack⟩ := hUp hBelow
  obtain ⟨j, _, hUpTo⟩ := (hWalks Binary.one).1 hOne
  obtain ⟨k, _, hDownTo⟩ := (hWalks (-Binary.one)).2 hMinusOne
  exact ⟨_, rfl, hCovered, by decide, (hDown hAbove).1, by decide, hBack, by decide, hPattern,
    ⟨hOne, j, hUpTo (by decide)⟩, ⟨hMinusOne, k, hDownTo (by decide)⟩, hStays rfl⟩

end Single

end StepSampling
