import ImagingLexer.Binary32.Rounding
import Mathlib.Tactic.Linarith
import Mathlib.Tactic.Ring

/-! # The range of binary32

A fraction has a finite binary32 word exactly when it is below 2¹²⁸ - 2¹⁰³, the point
halfway between the largest finite number and the power of two that follows it.
-/

namespace ImagingLexer

/-- A half is rounded up to an even bound, so only what lies below the half stays below. -/
theorem roundHalfEven_lt_iff {num den bound : Nat} (hden : 0 < den) (heven : 2 ∣ bound) :
    roundHalfEven num den < bound ↔ 2 * num + den < 2 * bound * den := by
  have hdiv := Nat.div_add_mod num den
  have hmod := Nat.mod_lt num hden
  have hlow := div_le_roundHalfEven num den
  have hhigh := roundHalfEven_le num den
  have hbound : 2 * bound * den = 2 * (den * bound) := by ring
  rw [hbound]
  rcases Nat.lt_trichotomy (num / den + 1) bound with hlt | heq | hgt
  · have : den * (num / den + 2) ≤ den * bound := Nat.mul_le_mul_left den hlt
    rw [Nat.mul_add] at this
    constructor <;> intro <;> omega
  · have hquotient : (num / den) % 2 = 1 := by omega
    rw [← heq, Nat.mul_add, Nat.mul_one]
    simp only [roundHalfEven, hquotient]
    split
    · omega
    · split <;> omega
  · have : den * bound ≤ den * (num / den) := Nat.mul_le_mul_left den (by omega)
    constructor <;> intro <;> omega

namespace Binary32

def overflowUnits : Nat := (2 ^ 25 - 1) * 2 ^ 252

theorem nearestWord_eq (num den : Nat) :
    nearestWord num den =
      roundHalfEven (2 ^ 149 * num) (den * 2 ^ ((2 ^ 149 * num / den).log2 - 23)) +
        2 ^ 23 * ((2 ^ 149 * num / den).log2 - 23) := by
  unfold nearestWord
  simp only [Nat.shiftLeft_eq, Nat.mul_comm num, Nat.mul_comm _ (2 ^ 23)]

theorem lt_of_exponent (units : Nat) : units < 2 ^ 24 * 2 ^ (units.log2 - 23) := by
  rw [← Nat.pow_add]
  exact Nat.lt_of_lt_of_le Nat.lt_log2_self (Nat.pow_le_pow_right (by omega) (by omega))

theorem le_of_exponent_pos {units : Nat} (h : 0 < units.log2 - 23) :
    2 ^ 23 * 2 ^ (units.log2 - 23) ≤ units := by
  have hne : units ≠ 0 := by
    rintro rfl
    simp at h
  rw [← Nat.pow_add, show 23 + (units.log2 - 23) = units.log2 by omega]
  exact Nat.log2_self_le hne

theorem nearestWord_lt_iff {num den : Nat} (hden : 0 < den) :
    nearestWord num den < 0x7F800000 ↔ 2 ^ 149 * num < overflowUnits * den := by
  rw [nearestWord_eq]
  generalize 2 ^ 149 * num = units
  have hlog := lt_of_exponent (units / den)
  have hlarge := @le_of_exponent_pos (units / den)
  generalize (units / den).log2 - 23 = exponent at *
  have hscaled : units / (den * 2 ^ exponent) = units / den / 2 ^ exponent :=
    (Nat.div_div_eq_div_mul ..).symm
  have hlow := div_le_roundHalfEven units (den * 2 ^ exponent)
  have hhigh := roundHalfEven_le units (den * 2 ^ exponent)
  rw [hscaled] at hlow hhigh
  unfold overflowUnits
  -- Only in the last binade, whose exponent is 253, can rounding reach the bound.
  rcases Nat.lt_trichotomy exponent 253 with hlt | rfl | hgt
  · have hquotient : units / den / 2 ^ exponent < 2 ^ 24 := by
      rwa [Nat.div_lt_iff_lt_mul (by positivity)]
    have hpow : 2 ^ exponent ≤ 2 ^ 252 := Nat.pow_le_pow_right (by omega) (by omega)
    have hsmall : units / den < 2 ^ 24 * 2 ^ 252 := by omega
    rw [Nat.div_lt_iff_lt_mul hden] at hsmall
    constructor <;> intro <;> omega
  · have hround := @roundHalfEven_lt_iff units (den * 2 ^ 253) (2 ^ 24) (by positivity)
      (by decide)
    omega
  · have hlarge := hlarge (by omega)
    have hquotient : 2 ^ 23 ≤ units / den / 2 ^ exponent := by
      rwa [Nat.le_div_iff_mul_le (by positivity)]
    have hpow : 2 ^ 254 ≤ 2 ^ exponent := Nat.pow_le_pow_right (by omega) (by omega)
    have hbig : 2 ^ 23 * 2 ^ 254 ≤ units / den := by omega
    rw [Nat.le_div_iff_mul_le hden] at hbig
    constructor <;> intro <;> omega

/-- The least number that is too large for binary32. -/
def overflow : Nat := 2 ^ 128 - 2 ^ 103

theorem isSome_ofRatio?_iff {num den : Nat} (hden : 0 < den) :
    (ofRatio? num den).isSome = true ↔ num < overflow * den := by
  have hunits : num < overflow * den ↔ 2 ^ 149 * num < overflowUnits * den := by
    unfold overflow overflowUnits
    omega
  rw [hunits, ← nearestWord_lt_iff hden]
  simp only [ofRatio?, Option.isSome_ite]

end Binary32

end ImagingLexer
