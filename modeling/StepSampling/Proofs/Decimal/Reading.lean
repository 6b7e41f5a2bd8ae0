import StepSampling.Decimal.Shortest
import StepSampling.Proofs.Binary.Limits
import StepSampling.Proofs.Decimal.Digits
import Mathlib.Algebra.Order.Field.Power
import Mathlib.Data.List.TakeWhile

/-!
# Numbers read back

Writing a number and reading the characters gives the number, for every number of both formats.

There are three steps.  The characters of a decimal are read as its coefficient and its places.  What
is read is rounded once, and the two bounds on the leading digit change nothing: beyond the first one
every value is at or past the value that infinity would have, and below the second one every value
is less than half of the least positive number.  And the decimal that is written has been tested by
rounding it, or is the exact value of the number.
-/

namespace StepSampling

/-! ## The characters of a decimal -/

namespace Decimal

/-- A decimal starts with a digit. -/
theorem exists_chars_eq_cons (d : Decimal) :
    ∃ c rest, d.chars = c :: rest ∧ isDigit c = true := by
  obtain ⟨hSome, hDigits⟩ := digits_all (d.coefficient / Nat.pow 10 d.places)
  obtain ⟨c, rest, hWhole⟩ := List.exists_cons_of_ne_nil hSome
  rw [hWhole, List.all_cons, Bool.and_eq_true] at hDigits
  exact ⟨c, _, by rw [chars, hWhole, List.cons_append], hDigits.1⟩

/-- A decimal consists of digits and points. -/
theorem isDigit_or_of_mem_chars {d : Decimal} {c : Char} (hMem : c ∈ d.chars) :
    isDigit c = true ∨ c = '.' := by
  rw [chars, List.mem_append] at hMem
  obtain hWhole | hFraction := hMem
  · exact .inl (isDigit_of_mem_fixedDigits hWhole)
  · split at hFraction
    · cases hFraction
    · obtain rfl | hDigit := List.mem_cons.mp hFraction
      · exact .inr rfl
      · exact .inl (isDigit_of_mem_fixedDigits hDigit)

theorem splitDigits_of_digits {ds : List Char} (hDigits : ds.all isDigit = true) :
    splitDigits ds = (ds, []) := by
  have hAll : ∀ c ∈ ds, isDigit c = true := List.all_eq_true.mp hDigits
  rw [splitDigits, List.takeWhile_eq_self_iff.mpr hAll, List.dropWhile_eq_nil_iff.mpr hAll]

/-- Digits end where something else than a digit starts. -/
theorem splitDigits_append_cons {ds : List Char} (hDigits : ds.all isDigit = true) {c : Char}
    (hEnd : isDigit c = false) (rest : List Char) :
    splitDigits (ds ++ c :: rest) = (ds, c :: rest) := by
  have hAll : ∀ d ∈ ds, isDigit d = true := List.all_eq_true.mp hDigits
  rw [splitDigits, List.takeWhile_append_of_pos hAll, List.dropWhile_append_of_pos hAll]
  simp [hEnd]

/-- Digits alone are a whole number. -/
theorem readScientific_of_digits {ds : List Char} (hSome : ds ≠ []) (hDigits : ds.all isDigit = true) :
    readScientific ds = some (ofDigits ds, 0) := by
  have hSplit := splitDigits_of_digits hDigits
  simp [readScientific, hSplit, splitFraction, hSome, readExponent]

/-- The digits behind the point are the negated exponent. -/
theorem readScientific_of_point {ds es : List Char} (hSome : ds ≠ []) (hDigits : ds.all isDigit = true)
    (hBehind : es.all isDigit = true) :
    readScientific (ds ++ '.' :: es) = some (ofDigits (ds ++ es), -(es.length : Int)) := by
  have hSplit := splitDigits_append_cons hDigits (show isDigit '.' = false from rfl) es
  have hRest := splitDigits_of_digits hBehind
  simp [readScientific, hSplit, splitFraction, hRest, hSome, readExponent]

/-- A written decimal is read as its coefficient and its places. -/
theorem readScientific_chars (d : Decimal) :
    readScientific d.chars = some (d.coefficient, -(d.places : Int)) := by
  obtain ⟨hSome, hWhole⟩ := digits_all (d.coefficient / Nat.pow 10 d.places)
  rw [chars]
  split
  · next hPlaces =>
    rw [List.append_nil, readScientific_of_digits hSome hWhole, ofDigits_digits, hPlaces]
    simp
  · have hFraction : (fixedDigits d.places (d.coefficient % Nat.pow 10 d.places)).all isDigit = true :=
      List.all_eq_true.mpr fun c hMem => isDigit_of_mem_fixedDigits hMem
    have hValue : ofDigits (digits (d.coefficient / Nat.pow 10 d.places) ++
        fixedDigits d.places (d.coefficient % Nat.pow 10 d.places)) = d.coefficient := by
      rw [ofDigits_append, ofDigits_digits, ofDigits_fixedDigits, length_fixedDigits, Nat.pow_eq,
        Nat.mod_mod, Nat.div_add_mod']
    rw [readScientific_of_point hSome hWhole hFraction, hValue, length_fixedDigits]

end Decimal

/-! ## Rounding what is read -/

namespace Magnitude

variable {F : Format}

/-- Past the first bound on the leading digit every value is infinite. -/
theorem infinite_of_leading {c : Nat} {e : Int} (hPos : 0 < c)
    (hLarge : (2 ^ (F.exponentBits - 1) : Nat) < e + Decimal.digitCount c) :
    F.top ≤ F.nearestCode (c * 10 ^ e) := by
  apply F.top_le_nearestCode
  generalize 2 ^ (F.exponentBits - 1) = bound at hLarge ⊢
  have hDigits : (10 : ℚ) ^ (Decimal.digitCount c : Int) ≤ 10 * c := by
    exact_mod_cast Decimal.pow_digitCount_le hPos
  have hTen : (10 : ℚ) * 10 ^ bound ≤ 10 * (c * 10 ^ e) := by
    calc (10 : ℚ) * 10 ^ bound = 10 ^ ((bound + 1 : Nat) : Int) := by
          rw [zpow_natCast, pow_succ']
      _ ≤ 10 ^ ((Decimal.digitCount c : Int) + e) := zpow_le_zpow_right₀ (by norm_num) (by omega)
      _ = 10 ^ (Decimal.digitCount c : Int) * 10 ^ e := zpow_add₀ (by norm_num) _ _
      _ ≤ 10 * c * 10 ^ e := mul_le_mul_of_nonneg_right hDigits (by positivity)
      _ = 10 * (c * 10 ^ e) := mul_assoc _ _ _
  calc (2 : ℚ) ^ bound ≤ 10 ^ bound := pow_le_pow_left₀ (by norm_num) (by norm_num) bound
    _ ≤ c * 10 ^ e := le_of_mul_le_mul_left hTen (by norm_num)

/-- Below the second bound on the leading digit every value vanishes. -/
theorem zero_of_leading {c : Nat} {e : Int} (hSmall : e + Decimal.digitCount c < -F.scale) :
    F.nearestCode (c * 10 ^ e) = 0 := by
  have hNonneg : (0 : ℚ) ≤ c * 10 ^ e := by positivity
  rw [← Nat.le_zero, ← Nat.not_lt, F.nearestCode_pos_iff hNonneg, not_lt, F.unity_cast, ← pow_succ']
  have hDigits : (c : ℚ) ≤ 10 ^ (Decimal.digitCount c : Int) := by
    exact_mod_cast (Decimal.lt_pow_digitCount c).le
  calc (c : ℚ) * 10 ^ e ≤ 10 ^ (Decimal.digitCount c : Int) * 10 ^ e :=
        mul_le_mul_of_nonneg_right hDigits (by positivity)
    _ = 10 ^ ((Decimal.digitCount c : Int) + e) := (zpow_add₀ (by norm_num) _ _).symm
    _ ≤ 10 ^ (-((F.scale + 1 : Nat) : Int)) := zpow_le_zpow_right₀ (by norm_num) (by omega)
    _ = 1 / 10 ^ (F.scale + 1) := by rw [zpow_neg, zpow_natCast, one_div]
    _ ≤ 1 / 2 ^ (F.scale + 1) :=
        one_div_le_one_div_of_le (by positivity)
          (pow_le_pow_left₀ (by norm_num) (by norm_num) (F.scale + 1))

/-- A number read is the one nearest to its exact value. -/
theorem code_ofScientific (c : Nat) (e : Int) :
    (ofScientific F c e).code = min (F.nearestCode (c * 10 ^ e)) F.top := by
  have hUnity := F.unity_cast_pos
  unfold ofScientific
  dsimp only
  split
  · next hZero =>
    rw [hZero, Nat.cast_zero, zero_mul, ← F.codeValue_zero, F.nearestCode_codeValue, Nat.zero_min]
    rfl
  next hCoefficient =>
  split
  · next hLarge =>
    rw [Nat.one_shiftLeft] at hLarge
    rw [min_eq_right (infinite_of_leading (Nat.pos_of_ne_zero hCoefficient) hLarge)]
    rfl
  split
  · next hSmall =>
    rw [zero_of_leading hSmall, Nat.zero_min]
    rfl
  split
  · next hWhole =>
    obtain ⟨k, rfl⟩ := Int.eq_ofNat_of_zero_le hWhole
    rw [code_ofQuotient _ _ Nat.one_pos]
    congr 2
    push_cast
    field_simp
    simp
  · next hNegative =>
    obtain ⟨k, rfl⟩ : ∃ k : Nat, e = -(k : Int) := ⟨(-e).toNat, by omega⟩
    rw [Nat.pow_eq, code_ofQuotient _ _ (Nat.pow_pos (by decide))]
    congr 2
    push_cast
    field_simp
    simp

/-! ## The decimal that is written -/

/-- The test of a candidate is rounding its value. -/
theorem readsBack_iff (m : Magnitude F) (c p : Nat) :
    m.readsBack c p = true ↔ min (F.nearestCode (c * 10 ^ p / 10 ^ F.scale)) F.top = m.code := by
  have hValue : (c * 10 ^ p / 10 ^ F.scale : ℚ) =
      (c * Nat.pow 10 p : Nat) / (Nat.pow 5 F.scale : Nat) / F.unity := by
    rw [F.unity_cast, Nat.pow_eq, Nat.pow_eq, div_div]
    push_cast
    rw [← mul_pow]
    norm_num
  have hPow : 0 < Nat.pow 5 F.scale := Nat.pow_pos (by decide)
  rw [readsBack, beq_iff_eq, code_ofQuotient _ _ hPow, hValue]

/-- The exact value passes the test. -/
theorem readsBack_exact (m : Magnitude F) :
    m.readsBack (m.units * Nat.pow 5 F.scale) 0 = true := by
  have hValue : ((m.units * Nat.pow 5 F.scale : Nat) * 10 ^ 0 / 10 ^ F.scale : ℚ) =
      F.codeValue m.code := by
    have hTen : (10 : ℚ) ^ F.scale = 5 ^ F.scale * 2 ^ F.scale := by
      rw [← mul_pow]
      norm_num
    rw [Format.codeValue, F.unity_cast, hTen, Nat.pow_eq, units]
    push_cast
    field_simp
  rw [readsBack_iff, hValue, F.nearestCode_codeValue, min_eq_left m.code_le_top]

theorem readsBack_of_onGrid {m : Magnitude F} {exact p c : Nat}
    (hHit : m.onGrid exact p = some c) : m.readsBack c p = true := by
  unfold onGrid at hHit
  dsimp only at hHit
  split at hHit
  · next hLow hHigh =>
    cases hHit
    split
    · exact hLow
    · exact hHigh
  · next hLow _ =>
    cases hHit
    exact hLow
  · next _ hHigh =>
    cases hHit
    exact hHigh
  · cases hHit

/-- The search ends with a candidate that has passed the test. -/
theorem readsBack_coarsest {m : Magnitude F} {exact : Nat} (hExact : m.readsBack exact 0 = true)
    (p : Nat) : m.readsBack (m.coarsest exact p).1 (m.coarsest exact p).2 = true := by
  fun_induction coarsest m exact p with
  | case1 => exact hExact
  | case2 p c hHit => exact readsBack_of_onGrid hHit
  | case3 p hNone ih => exact ih

/-- What is written of a finite magnitude denotes a rational that rounds to it. -/
theorem nearestCode_shortest (m : Magnitude F) :
    min (F.nearestCode (m.shortest.coefficient * 10 ^ (-(m.shortest.places : Int)))) F.top =
      m.code := by
  unfold shortest
  split
  · next hZero =>
    have hCode : m.code = 0 := beq_iff_eq.mp hZero
    rw [Nat.cast_zero, zero_mul, ← F.codeValue_zero, F.nearestCode_codeValue, Nat.zero_min, hCode]
  dsimp only
  have hReads := readsBack_coarsest m.readsBack_exact
    (Decimal.digitCount (m.units * Nat.pow 5 F.scale))
  generalize m.coarsest _ _ = found at hReads ⊢
  obtain ⟨c, p⟩ := found
  rw [readsBack_iff] at hReads
  rw [← hReads]
  congr 2
  split
  · next hCoarse =>
    obtain ⟨k, rfl⟩ := Nat.exists_eq_add_of_le hCoarse
    rw [Nat.add_sub_cancel_left, Nat.pow_eq, pow_add]
    push_cast
    field_simp
  · next hFine =>
    obtain ⟨k, hScale⟩ : ∃ k, F.scale = p + k := ⟨F.scale - p, by omega⟩
    rw [hScale, Nat.add_sub_cancel_left, pow_add, zpow_neg, zpow_natCast]
    field_simp

/-- The written decimal of a finite magnitude is read as the magnitude. -/
theorem ofScientific_shortest (m : Magnitude F) :
    ofScientific F m.shortest.coefficient (-(m.shortest.places : Int)) = m := by
  apply eq_of_code
  rw [code_ofScientific, nearestCode_shortest]

end Magnitude

/-! ## Numbers -/

namespace Decimal

/-- A digit is no sign. -/
theorem splitSign_of_isDigit {c : Char} {rest : List Char} (hDigit : isDigit c = true) :
    splitSign (c :: rest) = (false, c :: rest) := by
  unfold splitSign
  split
  · next hMinus =>
    cases hMinus
    cases hDigit
  · next hPlus =>
    cases hPlus
    cases hDigit
  · rfl

/-- Digits have no case. -/
theorem toLower_of_isDigit {c : Char} (hDigit : isDigit c = true) : c.toLower = c := by
  rw [isDigit_iff] at hDigit
  have hLetter : ¬(c.val ≥ 'A'.val ∧ c.val ≤ 'Z'.val) := by
    rintro ⟨hLow, -⟩
    have hCode : 65 ≤ c.toNat := hLow
    omega
  exact dif_neg hLetter

end Decimal

namespace Binary

variable {F : Format}

/-- What starts with a digit is none of the words. -/
theorem read?_of_isDigit (negative : Bool) {c : Char} {rest : List Char}
    (hDigit : Decimal.isDigit c = true) :
    read? F ((if negative then ['-'] else []) ++ c :: rest) =
      (Decimal.readScientific (c :: rest)).map fun (coefficient, exponent) =>
        .signed negative (.ofScientific F coefficient exponent) := by
  have hSign : Decimal.splitSign ((if negative then ['-'] else []) ++ c :: rest) =
      (negative, c :: rest) := by
    cases negative with
    | false => exact Decimal.splitSign_of_isDigit hDigit
    | true => rfl
  have hWord : ∀ d ds, Decimal.isDigit d = false → (c :: rest).map Char.toLower ≠ d :: ds := by
    intro d ds hLetter hEq
    rw [List.map_cons, Decimal.toLower_of_isDigit hDigit] at hEq
    cases hEq
    rw [hDigit] at hLetter
    cases hLetter
  have hInf : (c :: rest).map Char.toLower ≠ "inf".toList := hWord _ _ rfl
  have hInfinity : (c :: rest).map Char.toLower ≠ "infinity".toList := hWord _ _ rfl
  have hNan : (c :: rest).map Char.toLower ≠ "nan".toList := hWord _ _ rfl
  unfold read?
  rw [hSign]
  dsimp only
  rw [if_neg (not_or.mpr ⟨hInf, hInfinity⟩), if_neg hNan]

/-- **Numbers read back.**  The characters of a number are read as that number, whatever it is: both
zeros, the infinities and NaN included. -/
theorem read?_chars (x : Binary F) : read? F x.chars = some x := by
  cases x with
  | nan => rfl
  | signed negative m =>
    rw [chars, charsWith]
    by_cases hInfinite : m.isInfinite = true
    · obtain rfl : m = .infinity := Magnitude.eq_of_code (beq_iff_eq.mp hInfinite)
      rw [if_pos hInfinite]
      cases negative <;> rfl
    · obtain ⟨c, rest, hChars, hDigit⟩ := m.shortest.exists_chars_eq_cons
      rw [if_neg hInfinite, hChars, read?_of_isDigit negative hDigit, ← hChars,
        Decimal.readScientific_chars, Option.map_some]
      exact congrArg (fun n => some (signed negative n)) m.ofScientific_shortest

end Binary

end StepSampling
