import ImagingLexer.Proofs.Binary32.Range
import Mathlib.Algebra.Order.Field.Basic
import Mathlib.Algebra.Order.Field.Rat
import Mathlib.Algebra.Order.Ring.Abs
import Mathlib.Order.Monotone.Basic
import Mathlib.Tactic.FieldSimp
import Mathlib.Tactic.Linarith

/-! # Nearest binary32 numbers

The finite numbers that are not negative go up with their words, so the nearest of them
is told by its two neighbours alone: the fraction must not lie beyond the midpoint to
either, and on a midpoint the word must be even.
-/

namespace ImagingLexer

section BelowOrEven

variable {n m : Nat} {a b : ℚ}

/-- One number is below another, or meets it where `n` is even. -/
def BelowOrEven (n : Nat) (a b : ℚ) : Prop := a < b ∨ a = b ∧ 2 ∣ n

theorem BelowOrEven.le (h : BelowOrEven n a b) : a ≤ b := by
  rcases h with hlt | ⟨rfl, -⟩
  · exact hlt.le
  · exact le_rfl

theorem BelowOrEven.even (h : BelowOrEven n a b) (heq : a = b) : 2 ∣ n := by
  rcases h with hlt | ⟨-, heven⟩
  · exact absurd heq hlt.ne
  · exact heven

theorem BelowOrEven.widen {a' b' : ℚ} (h : BelowOrEven n a b) (hgap : b - a ≤ b' - a')
    (hn : 2 ∣ n → 2 ∣ m) : BelowOrEven m a' b' := by
  have hle : a' ≤ b' := by linarith [h.le]
  rcases hle.lt_or_eq with hlt | heq
  · exact .inl hlt
  · exact .inr ⟨heq, hn (h.even (by linarith [h.le]))⟩

theorem BelowOrEven.mul_right {c : ℚ} (h : BelowOrEven n a b) (hc : 0 < c) :
    BelowOrEven n (a * c) (b * c) := by
  rcases h with hlt | ⟨rfl, heven⟩
  · exact .inl (mul_lt_mul_of_pos_right hlt hc)
  · exact .inr ⟨rfl, heven⟩

end BelowOrEven

theorem roundHalfEven_spec (num : Nat) {den : Nat} (hden : 0 < den) :
    let rounded := roundHalfEven num den
    BelowOrEven rounded (2 * (num / den)) (2 * rounded + 1) ∧
      BelowOrEven rounded (2 * rounded) (2 * (num / den) + 1) := by
  intro rounded
  have hpos : (0 : ℚ) < den := by exact_mod_cast hden
  have hnum : (num / den : ℚ) = (num / den : ℕ) + (num % den : ℕ) / den := by
    have hdiv : (den * (num / den : ℕ) + (num % den : ℕ) : ℚ) = num := by
      exact_mod_cast Nat.div_add_mod num den
    rw [← mul_div_cancel_left₀ ((num / den : ℕ) : ℚ) hpos.ne', ← add_div, hdiv]
  have hone : ((num % den : ℕ) / den : ℚ) < 1 := by
    rw [div_lt_one hpos]
    exact_mod_cast Nat.mod_lt num hden
  have hzero : (0 : ℚ) ≤ (num % den : ℕ) / den := by positivity
  rw [hnum]
  simp only [rounded, roundHalfEven]
  split
  next hless =>
    have hless : 2 * ((num % den : ℕ) / den : ℚ) < 1 := by
      rw [← mul_div_assoc, div_lt_one hpos]
      exact_mod_cast hless
    constructor <;> left <;> linarith
  next hless =>
    split
    next hmore =>
      have hmore : 1 < 2 * ((num % den : ℕ) / den : ℚ) := by
        rw [← mul_div_assoc, one_lt_div hpos]
        exact_mod_cast hmore
      push_cast
      constructor <;> left <;> linarith
    next hmore =>
      have hhalf : 2 * ((num % den : ℕ) / den : ℚ) = 1 := by
        rw [← mul_div_assoc, div_eq_one_iff_eq hpos.ne']
        exact_mod_cast Nat.le_antisymm (Nat.le_of_not_lt hmore) (Nat.le_of_not_lt hless)
      rcases Nat.mod_two_eq_zero_or_one (num / den) with heven | hodd
      · rw [heven, Nat.add_zero]
        exact ⟨.inr ⟨by linarith, Nat.dvd_of_mod_eq_zero heven⟩, .inl (by linarith)⟩
      · rw [hodd]
        push_cast
        exact ⟨.inl (by linarith), .inr ⟨by linarith, by omega⟩⟩

namespace Binary32

/-- Where a word stands among those of its sign. -/
def rank (x : Binary32) : Nat := x.bits.toNat % 2 ^ 31

/-- The significand in units of its last place: a normal number has a leading one. -/
def significand (x : Binary32) : Nat :=
  if x.field = 0 then x.fraction else 2 ^ 23 + x.fraction

def toRat (x : Binary32) : ℚ :=
  (if x.isNegative then -1 else 1) * (x.significand * 2 ^ (x.field - 1)) / 2 ^ 149

/-- A finite number to which no other finite number is nearer, and of which the significand is
even where another is as near. -/
structure IsNearest (x : Binary32) (q : ℚ) : Prop where
  isFinite : x.isFinite = true
  le : ∀ y : Binary32, y.isFinite = true → |x.toRat - q| ≤ |y.toRat - q|
  even : ∀ y : Binary32, y.isFinite = true → y.toRat ≠ x.toRat →
    |x.toRat - q| = |y.toRat - q| → 2 ∣ x.significand

def unitsAt (rank : Nat) : Nat :=
  (if rank < 2 ^ 23 then rank else 2 ^ 23 + rank % 2 ^ 23) * 2 ^ (rank / 2 ^ 23 - 1)

theorem unitsAt_add {significand exponent : Nat} (hhigh : significand ≤ 2 ^ 24)
    (hlow : exponent = 0 ∨ 2 ^ 23 ≤ significand) :
    unitsAt (significand + 2 ^ 23 * exponent) = significand * 2 ^ exponent := by
  unfold unitsAt
  rcases hhigh.lt_or_eq with hlt | rfl
  · have hexponent : (significand + 2 ^ 23 * exponent) / 2 ^ 23 - 1 = exponent := by omega
    have hsignificand : (if significand + 2 ^ 23 * exponent < 2 ^ 23 then
        significand + 2 ^ 23 * exponent
        else 2 ^ 23 + (significand + 2 ^ 23 * exponent) % 2 ^ 23) = significand := by
      split <;> omega
    rw [hexponent, hsignificand]
  · have hexponent : (2 ^ 24 + 2 ^ 23 * exponent) / 2 ^ 23 - 1 = exponent + 1 := by omega
    have hfraction : (2 ^ 24 + 2 ^ 23 * exponent) % 2 ^ 23 = 0 := by omega
    rw [if_neg (by omega), hexponent, hfraction]
    ring

theorem unitsAt_succ (rank : Nat) :
    unitsAt (rank + 1) = unitsAt rank + 2 ^ (rank / 2 ^ 23 - 1) := by
  obtain ⟨significand, exponent, hhigh, hlow, rfl⟩ :
      ∃ significand exponent, significand < 2 ^ 24 ∧ (exponent = 0 ∨ 2 ^ 23 ≤ significand) ∧
        significand + 2 ^ 23 * exponent = rank :=
    ⟨rank - 2 ^ 23 * (rank / 2 ^ 23 - 1), rank / 2 ^ 23 - 1, by omega, by omega, by omega⟩
  rw [Nat.add_right_comm, unitsAt_add (by omega) (by omega), unitsAt_add (by omega) hlow,
    show (significand + 2 ^ 23 * exponent) / 2 ^ 23 - 1 = exponent by omega, Nat.succ_mul]

theorem unitsAt_strictMono : StrictMono unitsAt := by
  refine strictMono_nat_of_lt_succ fun rank => ?_
  rw [unitsAt_succ]
  exact Nat.lt_add_of_pos_right (by positivity)

/-- The units lie between the midpoints to the neighbours, and on one only if the word is
even. -/
structure Central (rank : Nat) (units : ℚ) : Prop where
  high : BelowOrEven rank (2 * units) (unitsAt rank + unitsAt (rank + 1))
  low : ∀ below, below + 1 = rank →
    BelowOrEven rank (unitsAt below + unitsAt rank) (2 * units)

theorem Central.dist {rank other : Nat} {units : ℚ} (h : Central rank units)
    (hne : other ≠ rank) :
    BelowOrEven rank |(unitsAt rank : ℚ) - units| |(unitsAt other : ℚ) - units| := by
  have hmono : ∀ {a b}, a ≤ b → (unitsAt a : ℚ) ≤ unitsAt b := fun hle => by
    exact_mod_cast unitsAt_strictMono.monotone hle
  have hstrict : ∀ {a b}, a < b → (unitsAt a : ℚ) < unitsAt b := fun hlt => by
    exact_mod_cast unitsAt_strictMono hlt
  -- The squares of the two distances differ by the product of `other - rank` and twice the
  -- distance of the units from the midpoint.
  rcases Nat.lt_or_gt_of_ne hne with hlt | hgt
  · obtain ⟨below, rfl⟩ : ∃ below, below + 1 = rank := ⟨rank - 1, by omega⟩
    have hbelow := hmono (show other ≤ below by omega)
    have hother := sub_neg.2 (hstrict hlt)
    have hside : BelowOrEven (below + 1) (unitsAt other + unitsAt (below + 1)) (2 * units) :=
      (h.low below rfl).widen (by linarith) id
    rcases hside with hmid | ⟨hmid, heven⟩
    · have := mul_pos_of_neg_of_neg hother (sub_neg.2 hmid)
      exact .inl (sq_lt_sq.1 (by linarith))
    · exact .inr ⟨abs_eq_abs.2 (.inr (by linarith)), heven⟩
  · have habove := hmono (show rank + 1 ≤ other by omega)
    have hother := sub_pos.2 (hstrict hgt)
    have hside : BelowOrEven rank (2 * units) (unitsAt other + unitsAt rank) :=
      h.high.widen (by linarith) id
    rcases hside with hmid | ⟨hmid, heven⟩
    · have := mul_pos hother (sub_pos.2 hmid)
      exact .inl (sq_lt_sq.1 (by linarith))
    · exact .inr ⟨abs_eq_abs.2 (.inr (by linarith)), heven⟩

theorem Central.dist_le {rank : Nat} {units : ℚ} (h : Central rank units) (other : Nat) :
    |(unitsAt rank : ℚ) - units| ≤ |(unitsAt other : ℚ) - units| := by
  rcases eq_or_ne other rank with rfl | hne
  · exact le_rfl
  · exact (h.dist hne).le

/-- A ratio that is rounded to a significand of 24 bits gives a word between the midpoints.
Only below the least significand of a binade are the neighbours closer than a unit. -/
theorem central_of_rounded {significand exponent : Nat} {ratio : ℚ}
    (hsmall : significand ≤ 2 ^ 24)
    (hnormal : exponent = 0 ∨ 2 ^ 23 ≤ significand ∧ (2 ^ 23 : ℚ) ≤ ratio)
    (hhigh : BelowOrEven significand (2 * ratio) (2 * significand + 1))
    (hlow : BelowOrEven significand (2 * significand) (2 * ratio + 1)) :
    Central (significand + 2 ^ 23 * exponent) (ratio * 2 ^ exponent) := by
  have hunit : (0 : ℚ) < 2 ^ exponent := by positivity
  have hrank : (unitsAt (significand + 2 ^ 23 * exponent) : ℚ) = significand * 2 ^ exponent := by
    exact_mod_cast unitsAt_add hsmall (hnormal.imp_right And.left)
  have hgap : ∀ rank, (unitsAt (rank + 1) : ℚ) = unitsAt rank + 2 ^ (rank / 2 ^ 23 - 1) := by
    intro rank
    exact_mod_cast unitsAt_succ rank
  constructor
  · have hwide : (2 : ℚ) ^ exponent ≤ 2 ^ ((significand + 2 ^ 23 * exponent) / 2 ^ 23 - 1) :=
      pow_le_pow_right₀ (by norm_num) (by omega)
    rw [hgap, hrank]
    exact (hhigh.mul_right hunit).widen (by linarith) (by omega)
  · intro below hbelow
    have hstep := hgap below
    rw [hbelow, hrank] at hstep
    rw [hrank]
    rcases Nat.lt_or_ge (below / 2 ^ 23 - 1) exponent with hnarrow | hwide
    · obtain ⟨hleast, hratio⟩ := hnormal.resolve_left (by omega)
      obtain rfl : significand = 2 ^ 23 := by omega
      have hshort : (0 : ℚ) < 2 ^ (below / 2 ^ 23 - 1) := by positivity
      have := mul_le_mul_of_nonneg_right hratio hunit.le
      rw [Nat.cast_pow, Nat.cast_ofNat] at hstep ⊢
      left
      linarith
    · rw [show below / 2 ^ 23 - 1 = exponent by omega] at hstep
      exact (hlow.mul_right hunit).widen (by linarith) (by omega)

theorem nearestWord_central (num : Nat) {den : Nat} (hden : 0 < den) :
    Central (nearestWord num den) (2 ^ 149 * (num / den)) := by
  have hscaled : (2 ^ 149 * (num / den) : ℚ) = (2 ^ 149 * num : ℕ) / den := by
    rw [Nat.cast_mul, Nat.cast_pow, Nat.cast_ofNat, mul_div_assoc]
  rw [hscaled, nearestWord_eq]
  generalize 2 ^ 149 * num = scaled
  have hlog := lt_of_exponent (scaled / den)
  have hlarge := @le_of_exponent_pos (scaled / den)
  generalize (scaled / den).log2 - 23 = exponent at *
  have hplace : 0 < den * 2 ^ exponent := Nat.mul_pos hden (Nat.two_pow_pos exponent)
  have hquotient : scaled / (den * 2 ^ exponent) = scaled / den / 2 ^ exponent :=
    (Nat.div_div_eq_div_mul ..).symm
  have hunits : (scaled / den : ℚ) = scaled / (den * 2 ^ exponent : ℕ) * 2 ^ exponent := by
    push_cast
    field_simp
  have hlow := div_le_roundHalfEven scaled (den * 2 ^ exponent)
  have hhigh := roundHalfEven_le scaled (den * 2 ^ exponent)
  obtain ⟨habove, hbelow⟩ := roundHalfEven_spec scaled hplace
  rw [hunits]
  -- The exponent was chosen so that the quotient has 24 bits, or fewer at exponent zero.
  refine central_of_rounded ?_ ?_ habove hbelow
  · have := Nat.div_lt_of_lt_mul (Nat.mul_comm _ _ ▸ hlog)
    omega
  · rcases Nat.eq_zero_or_pos exponent with hzero | hexponent
    · exact .inl hzero
    · have hle : 2 ^ 23 ≤ scaled / (den * 2 ^ exponent) := by
        rw [hquotient, Nat.le_div_iff_mul_le (by positivity)]
        exact hlarge hexponent
      refine .inr ⟨hle.trans hlow, ?_⟩
      rw [le_div_iff₀ (by exact_mod_cast hplace)]
      exact_mod_cast (Nat.le_div_iff_mul_le hplace).1 hle

section Decode

variable {x y : Binary32} {q : ℚ}

theorem rank_eq (x : Binary32) : x.rank = 2 ^ 23 * x.field + x.fraction := by
  simp only [rank, field, fraction]
  omega

theorem fraction_lt (x : Binary32) : x.fraction < 2 ^ 23 :=
  Nat.mod_lt _ (by decide)

theorem unitsAt_rank (x : Binary32) : unitsAt x.rank = x.significand * 2 ^ (x.field - 1) := by
  have hfraction := x.fraction_lt
  rw [unitsAt, significand, rank_eq]
  have hfield : (2 ^ 23 * x.field + x.fraction) / 2 ^ 23 = x.field := by omega
  rw [hfield]
  congr 1
  split <;> split <;> omega

theorem two_dvd_significand_iff : 2 ∣ x.significand ↔ 2 ∣ x.rank := by
  rw [significand, rank_eq]
  split <;> omega

theorem isFinite_iff_rank : x.isFinite = true ↔ x.rank < 0x7F800000 := by
  have hfraction := x.fraction_lt
  have hfield : x.field < 256 := Nat.mod_lt _ (by decide)
  rw [rank_eq, isFinite, decide_eq_true_eq]
  omega

theorem rank_of_isNegative_eq_false (h : x.isNegative = false) : x.rank = x.bits.toNat := by
  rw [isNegative, decide_eq_false_iff_not] at h
  rw [rank]
  omega

theorem toRat_of_isNegative_eq_false (h : x.isNegative = false) :
    x.toRat = unitsAt x.rank / 2 ^ 149 := by
  rw [toRat, unitsAt_rank, h]
  simp

theorem dist_of_isNegative_eq_false (h : x.isNegative = false) (q : ℚ) :
    |x.toRat - q| = |(unitsAt x.rank : ℚ) - 2 ^ 149 * q| / 2 ^ 149 := by
  have hscale : x.toRat - q = ((unitsAt x.rank : ℚ) - 2 ^ 149 * q) / 2 ^ 149 := by
    rw [toRat_of_isNegative_eq_false h, sub_div, mul_div_cancel_left₀ _ (by positivity)]
  rw [hscale, abs_div, abs_of_pos (by positivity : (0 : ℚ) < 2 ^ 149)]

theorem dist_of_isNegative (h : x.isNegative = true) (hq : 0 ≤ q) :
    |x.toRat - q| = ((unitsAt x.rank : ℚ) + |(unitsAt 0 : ℚ) - 2 ^ 149 * q|) / 2 ^ 149 := by
  have hzero : |(unitsAt 0 : ℚ) - 2 ^ 149 * q| = 2 ^ 149 * q := by
    rw [show unitsAt 0 = 0 from rfl, Nat.cast_zero, zero_sub, abs_neg,
      abs_of_nonneg (by positivity)]
  have hscale : x.toRat - q = -(((unitsAt x.rank : ℚ) + 2 ^ 149 * q) / 2 ^ 149) := by
    rw [toRat, unitsAt_rank, h, add_div, mul_div_cancel_left₀ _ (by positivity)]
    simp only [if_true]
    push_cast
    ring
  rw [hscale, abs_neg, abs_of_nonneg (by positivity), hzero]

theorem isNearest_of_central (hfinite : x.isFinite = true) (hsign : x.isNegative = false)
    (hq : 0 ≤ q) (h : Central x.rank (2 ^ 149 * q)) : x.IsNearest q := by
  refine ⟨hfinite, fun y _ => ?_, fun y _ hne heq => ?_⟩
  · rw [dist_of_isNegative_eq_false hsign]
    cases hy : y.isNegative with
    | false =>
      rw [dist_of_isNegative_eq_false hy]
      exact div_le_div_of_nonneg_right (h.dist_le y.rank) (by positivity)
    | true =>
      rw [dist_of_isNegative hy hq]
      have := h.dist_le 0
      exact div_le_div_of_nonneg_right (by linarith) (by positivity)
  · rw [two_dvd_significand_iff]
    rw [dist_of_isNegative_eq_false hsign] at heq
    cases hy : y.isNegative with
    | false =>
      rw [dist_of_isNegative_eq_false hy, div_left_inj' (by positivity)] at heq
      refine (h.dist fun hrank => hne ?_).even heq
      rw [toRat_of_isNegative_eq_false hy, toRat_of_isNegative_eq_false hsign, hrank]
    | true =>
      rw [dist_of_isNegative hy hq, div_left_inj' (by positivity)] at heq
      have hle := h.dist_le 0
      have hunits : (0 : ℚ) ≤ unitsAt y.rank := Nat.cast_nonneg _
      rcases Nat.eq_zero_or_pos x.rank with hzero | hpos
      · exact hzero ▸ Nat.dvd_zero 2
      · exact (h.dist hpos.ne).even (by linarith)

theorem isNearest_ofRatio? {num den : Nat} (hden : 0 < den) (h : ofRatio? num den = some x) :
    x.IsNearest (num / den) := by
  have hfinite := isFinite_of_ofRatio? h
  have hsign := isNegative_of_ofRatio? h
  have hrank : x.rank = nearestWord num den := by
    simp only [ofRatio?, Option.ite_none_right_eq_some, Option.some.injEq] at h
    obtain ⟨hlt, rfl⟩ := h
    simp only [rank, UInt32.toNat_ofNat']
    omega
  exact isNearest_of_central hfinite hsign (by positivity) (hrank ▸ nearestWord_central num hden)

theorem IsNearest.not_rank_lt (hx : x.IsNearest q) (hy : y.IsNearest q)
    (hxsign : x.isNegative = false) (hysign : y.isNegative = false) : ¬ x.rank < y.rank := by
  intro hlt
  have htoRat : ∀ {a b : Binary32}, a.isNegative = false → b.isNegative = false →
      a.rank < b.rank → a.toRat < b.toRat := by
    intro a b ha hb hab
    rw [toRat_of_isNegative_eq_false ha, toRat_of_isNegative_eq_false hb]
    exact div_lt_div_of_pos_right (by exact_mod_cast unitsAt_strictMono hab) (by positivity)
  have hxy := htoRat hxsign hysign hlt
  have heq : |x.toRat - q| = |y.toRat - q| :=
    le_antisymm (hx.le y hy.isFinite) (hy.le x hx.isFinite)
  have hxeven := two_dvd_significand_iff.1 (hx.even y hy.isFinite hxy.ne' heq)
  have hyeven := two_dvd_significand_iff.1 (hy.even x hx.isFinite hxy.ne heq.symm)
  have hyfinite := isFinite_iff_rank.1 hy.isFinite
  -- Both ranks are even, so a word stands between the two, and its number would be nearer.
  obtain ⟨z, hzsign, hzrank⟩ : ∃ z : Binary32, z.isNegative = false ∧ z.rank = x.rank + 1 := by
    refine ⟨⟨UInt32.ofNat (x.rank + 1)⟩, ?_, ?_⟩
    · simp only [isNegative, UInt32.toNat_ofNat', decide_eq_false_iff_not]
      omega
    · rw [rank, UInt32.toNat_ofNat']
      omega
  have hz := hx.le z (isFinite_iff_rank.2 (by omega))
  have hxz := htoRat hxsign hzsign (by omega)
  have hzy := htoRat hzsign hysign (by omega)
  rcases abs_eq_abs.1 heq with hsame | hmid
  · linarith
  · rw [abs_of_nonpos (by linarith), le_abs] at hz
    rcases hz with hz | hz <;> linarith

theorem IsNearest.unique (hx : x.IsNearest q) (hy : y.IsNearest q)
    (hxsign : x.isNegative = false) (hysign : y.isNegative = false) : x = y := by
  have hrank : x.rank = y.rank :=
    Nat.le_antisymm (Nat.le_of_not_lt (hy.not_rank_lt hx hysign hxsign))
      (Nat.le_of_not_lt (hx.not_rank_lt hy hxsign hysign))
  rw [rank_of_isNegative_eq_false hxsign, rank_of_isNegative_eq_false hysign] at hrank
  cases x
  cases y
  exact congrArg Binary32.mk (UInt32.toNat_inj.1 hrank)

/-- Rounding finds the one word without a sign that is nearest. -/
theorem ofRatio?_eq_some_iff {num den : Nat} (hden : 0 < den) (hrange : num < overflow * den) :
    ofRatio? num den = some x ↔ x.isNegative = false ∧ x.IsNearest (num / den) := by
  constructor
  · intro h
    exact ⟨isNegative_of_ofRatio? h, isNearest_ofRatio? hden h⟩
  · rintro ⟨hsign, hnearest⟩
    obtain ⟨y, hy⟩ := Option.isSome_iff_exists.1 ((isSome_ofRatio?_iff hden).2 hrange)
    rw [hy, (isNearest_ofRatio? hden hy).unique hnearest (isNegative_of_ofRatio? hy) hsign]

end Decode

end Binary32

end ImagingLexer
