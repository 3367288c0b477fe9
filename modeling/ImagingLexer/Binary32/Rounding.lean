import ImagingLexer.Binary32

/-! # Rounding to binary32

A non-negative fraction is rounded once, exactly, to the nearest binary32 number. The
work is done in multiples of the least positive number, 2⁻¹⁴⁹, so that every finite
binary32 number is a natural number of units.
-/

namespace ImagingLexer

/-- The integer nearest to `num / den`; a half goes to the even neighbour. -/
def roundHalfEven (num den : Nat) : Nat :=
  let quotient := num / den
  let remainder := num % den
  if 2 * remainder < den then quotient
  else if den < 2 * remainder then quotient + 1
  else quotient + quotient % 2

theorem div_le_roundHalfEven (num den : Nat) : num / den ≤ roundHalfEven num den := by
  simp only [roundHalfEven]
  split
  · exact Nat.le_refl _
  · split <;> omega

theorem roundHalfEven_le (num den : Nat) : roundHalfEven num den ≤ num / den + 1 := by
  simp only [roundHalfEven]
  split
  · omega
  · split <;> omega

namespace Binary32

/-- The exponent field and the fraction meet so that a significand which rounds up to
the next power of two carries into the exponent. -/
@[irreducible] def nearestWord (num den : Nat) : Nat :=
  let units := num <<< 149
  let exponent := (units / den).log2 - 23
  roundHalfEven units (den <<< exponent) + (exponent <<< 23)

/-- There is no word for a fraction that rounds to 2¹²⁸ or more. -/
def ofRatio? (num den : Nat) : Option Binary32 :=
  let word := nearestWord num den
  if word < 0x7F800000 then some ⟨UInt32.ofNat word⟩ else none

theorem isFinite_of_ofRatio? {num den : Nat} {x : Binary32} (h : ofRatio? num den = some x) :
    x.isFinite = true := by
  simp only [ofRatio?, Option.ite_none_right_eq_some, Option.some.injEq] at h
  obtain ⟨hlt, rfl⟩ := h
  simp only [isFinite, field, UInt32.toNat_ofNat', decide_eq_true_eq]
  omega

theorem isNegative_of_ofRatio? {num den : Nat} {x : Binary32}
    (h : ofRatio? num den = some x) : x.isNegative = false := by
  simp only [ofRatio?, Option.ite_none_right_eq_some, Option.some.injEq] at h
  obtain ⟨hlt, rfl⟩ := h
  simp only [isNegative, UInt32.toNat_ofNat', decide_eq_false_iff_not]
  omega

def ofDecimal? (whole fraction : List Char) : Option Binary32 :=
  ofRatio? (Nat.ofDigitChars 10 (whole ++ fraction) 0) (Nat.pow 10 fraction.length)

end Binary32

end ImagingLexer
