import ImagingLexer.Proofs.Binary32.Nearest
import ImagingLexer.Proofs.MaximalMunch
import Mathlib.Tactic.NormNum

/-! # Decimals

A decimal is rounded once, from the exact fraction that its digits denote, however many
there are.
-/

namespace ImagingLexer

open Lexeme

def decimalRat (whole fraction : List Char) : ℚ :=
  numeral whole + numeral fraction / 10 ^ fraction.length

/-- The token is the binary32 number nearest to a fraction, the one that has no sign, or it is
out of range where rounding would give 2¹²⁸. -/
structure Token.Rounds (token : Token) (q : ℚ) : Prop where
  nearest : q < 2 ^ 128 - 2 ^ 103 → token.kind = .floatLit ∧ ∃ x, token.value = .float x ∧
    ∀ y : Binary32, y = x ↔ y.isNegative = false ∧ y.IsNearest q
  outOfRange : 2 ^ 128 - 2 ^ 103 ≤ q → token.kind = .error ∧
    token.value = .error .floatOutOfRange

section Decimal

variable {whole fraction : List Char}

theorem decimalRat_eq (whole fraction : List Char) :
    decimalRat whole fraction =
      (numeral (whole ++ fraction) : ℕ) / (10 ^ fraction.length : ℕ) := by
  have hnumeral : numeral (whole ++ fraction) =
      10 ^ fraction.length * numeral whole + numeral fraction := by
    rw [numeral, Nat.ofDigitChars_append, Nat.ofDigitChars_eq_ofDigitChars_zero]
    rfl
  rw [decimalRat, hnumeral]
  push_cast
  field_simp

theorem decimalRat_lt_iff :
    decimalRat whole fraction < 2 ^ 128 - 2 ^ 103 ↔
      numeral (whole ++ fraction) < Binary32.overflow * 10 ^ fraction.length := by
  have hoverflow : (2 ^ 128 - 2 ^ 103 : ℚ) = (Binary32.overflow : ℕ) := by
    norm_num [Binary32.overflow]
  rw [hoverflow, decimalRat_eq, div_lt_iff₀ (by positivity)]
  norm_cast

theorem classified_decimal {rule : Rule} {rest : List Char} {kind : Kind} {value : Value}
    (hwhole : whole ≠ []) (hfraction : fraction ≠ [])
    (hdigits : ∀ c ∈ whole ++ fraction, c.isDigit = true)
    (hadmits : rule.Admits (whole ++ '.' :: fraction))
    (h : Classified rule (whole ++ '.' :: fraction) rest kind value) :
    (decimalRat whole fraction < 2 ^ 128 - 2 ^ 103 ∧ kind = .floatLit ∧
        ∃ x, value = .float x ∧ Binary32.ofDecimal? whole fraction = some x) ∨
      (¬ decimalRat whole fraction < 2 ^ 128 - 2 ^ 103 ∧ kind = .error ∧
        value = .error .floatOutOfRange) := by
  have hrule : rule = .number := by
    obtain ⟨d, digits, rfl⟩ := List.exists_cons_of_ne_nil hwhole
    have hhead : Rule.ofFirst? d = some rule := hadmits.ofFirst?_head
    rw [Rule.ofFirst?_of_isDigit (hdigits d (by simp))] at hhead
    exact (Option.some.inj hhead).symm
  subst hrule
  clear hadmits
  have hrun : ∀ c ∈ whole, c.isDigit = true := fun c hc => hdigits c (List.mem_append_left _ hc)
  have hpoint : ∀ {digits : List Char}, IsWhole digits → whole ++ '.' :: fraction ≠ digits := by
    rintro digits hdigits rfl
    have := hdigits.isDigit '.' (by simp)
    simp at this
  rw [decimalRat_lt_iff]
  generalize hword : whole ++ '.' :: fraction = word at h
  cases h with
  | integer hinteger => exact absurd hword (hpoint hinteger)
  | integerOutOfRange hinteger => exact absurd hword (hpoint hinteger)
  | missingFractionDigits hopen =>
    exact absurd (run_unique hrun hopen.isDigit rfl rfl hword).2.2 hfraction
  | decimal hdecimal _ _ hrange hrounded =>
    obtain ⟨rfl, -, rfl⟩ := run_unique hrun hdecimal.isDigit rfl rfl hword
    exact .inl ⟨hrange, rfl, _, rfl, hrounded⟩
  | floatOutOfRange hdecimal _ _ hrange =>
    obtain ⟨rfl, -, rfl⟩ := run_unique hrun hdecimal.isDigit rfl rfl hword
    exact .inr ⟨Nat.not_lt_of_le hrange, rfl, rfl⟩

theorem rounds_of_mem_tokenize {source : String} {token : Token} (hwhole : whole ≠ [])
    (hfraction : fraction ≠ []) (hdigits : ∀ c ∈ whole ++ fraction, c.isDigit = true)
    (h : token ∈ (tokenize source).value.tokens.toList)
    (htext : token.text.toList = whole ++ '.' :: fraction) :
    token.Rounds (decimalRat whole fraction) := by
  have hpositive := List.length_pos_iff.2 hwhole
  have hlength := congrArg List.length htext
  rw [List.length_append, List.length_cons] at hlength
  rcases classified_of_mem_tokenize h with rfl | ⟨c, hc, -⟩ | ⟨rule, rest, hadmits, hclassified⟩
  · simp [endToken] at hlength
  · rw [hc, String.toList_singleton, List.length_singleton] at hlength
    omega
  rw [htext] at hadmits hclassified
  rcases classified_decimal hwhole hfraction hdigits hadmits hclassified with
    ⟨hrange, hkind, x, hvalue, hrounded⟩ | ⟨hrange, hkind, hvalue⟩
  · refine ⟨fun _ => ⟨hkind, x, hvalue, fun y => ?_⟩, fun hle => absurd hrange (not_lt.2 hle)⟩
    have hnearest := @Binary32.ofRatio?_eq_some_iff y (numeral (whole ++ fraction))
      (10 ^ fraction.length) (by positivity) (decimalRat_lt_iff.1 hrange)
    rw [← decimalRat_eq] at hnearest
    have hx : Binary32.ofRatio? (numeral (whole ++ fraction)) (10 ^ fraction.length) = some x :=
      hrounded
    rw [← hnearest, hx, Option.some.injEq, eq_comm]
  · exact ⟨fun hlt => absurd hlt hrange, fun _ => ⟨hkind, hvalue⟩⟩

theorem sort?_ne_none_of_text {lexeme : Lexeme} (hwhole : whole ≠ [])
    (hdigits : ∀ c ∈ whole, c.isDigit = true) (htext : lexeme.text = whole ++ '.' :: fraction) :
    lexeme.sort? ≠ none := by
  intro hnone
  obtain ⟨d, digits, rfl⟩ := List.exists_cons_of_ne_nil hwhole
  rcases sort?_eq_none_iff.1 hnone with ⟨c, rfl⟩ | ⟨body, rfl⟩
  · simp [text] at htext
  · obtain ⟨rfl, -⟩ := List.cons.inj htext
    have := hdigits '#' List.mem_cons_self
    simp at this

/-- In every source, a lexeme of digits with a point between them has a token over the whole of
it, and each token of such a text is rounded from the fraction that its digits denote. -/
theorem rounds_tokenize (source : String) (hwhole : whole ≠ []) (hfraction : fraction ≠ [])
    (hdigits : ∀ c ∈ whole ++ fraction, c.isDigit = true) :
    (∀ a lexeme b, lexemes source.toList = a ++ lexeme :: b →
      lexeme.text = whole ++ '.' :: fraction →
        ∃ token ∈ (tokenize source).value.tokens.toList, token.text = String.ofList lexeme.text ∧
          token.span = .after (spell a) lexeme.text) ∧
    ∀ token ∈ (tokenize source).value.tokens.toList,
      token.text.toList = whole ++ '.' :: fraction →
        token.span.stop = token.span.start + (whole.length + 1 + fraction.length) ∧
          token.Rounds (decimalRat whole fraction) := by
  obtain ⟨hrun, hmore⟩ := List.forall_mem_append.1 hdigits
  constructor
  · intro a lexeme b hsplit htext
    obtain ⟨⟨kind, value⟩, hsort⟩ :=
      Option.ne_none_iff_exists'.1 (sort?_ne_none_of_text hwhole hrun htext)
    have htoken : lexeme.token? ([] ++ spell a) =
        some ⟨kind, String.ofList lexeme.text, .after (spell a) lexeme.text, value⟩ :=
      token?_eq_some_iff.2 ⟨kind, value, hsort, rfl⟩
    have hmem := mem_tokensAfter_of_token? (b := b) htoken
    rw [← hsplit] at hmem
    exact ⟨_, mem_tokens_tokenize_iff.2 (.inl hmem), rfl, rfl⟩
  · intro token h htext
    refine ⟨?_, rounds_of_mem_tokenize hwhole hfraction hdigits h htext⟩
    rw [stop_of_mem_tokenize h, htext, byteLength_append, byteLength_cons,
      byteLength_of_isDigit hrun, byteLength_of_isDigit hmore, show '.'.utf8Size = 1 from rfl]
    omega

theorem rounds_tokenize_halfway :
    let source := "16777217.0 340282356779733661637539395458142568448.0"
    let below : Token := ⟨.floatLit, "16777217.0", ⟨0, 10, 0, 0⟩, .float ⟨0x4B800000⟩⟩
    let above : Token := ⟨.error, "340282356779733661637539395458142568448.0", ⟨11, 52, 0, 11⟩,
      .error .floatOutOfRange⟩
    (below ∈ (tokenize source).value.tokens.toList ∧
      decimalRat "16777217".toList ['0'] = 16777217 ∧
      (⟨0x4B800000⟩ : Binary32).IsNearest 16777217) ∧
    (above ∈ (tokenize source).value.tokens.toList ∧
      decimalRat "340282356779733661637539395458142568448".toList ['0'] = 2 ^ 128 - 2 ^ 103 ∧
      above.kind = .error ∧ above.value = .error .floatOutOfRange) := by
  intro source below above
  have hbelow : below ∈ (tokenize source).value.tokens.toList :=
    List.mem_of_getElem? (i := 0) (by decide +kernel)
  have habove : above ∈ (tokenize source).value.tokens.toList :=
    List.mem_of_getElem? (i := 1) (by decide +kernel)
  have hsmall : decimalRat "16777217".toList ['0'] = 16777217 := by
    rw [decimalRat, show numeral "16777217".toList = 16777217 by decide +kernel]
    norm_num [numeral, Nat.ofDigitChars]
  have hlarge : decimalRat "340282356779733661637539395458142568448".toList ['0'] =
      2 ^ 128 - 2 ^ 103 := by
    rw [decimalRat, show numeral "340282356779733661637539395458142568448".toList =
      340282356779733661637539395458142568448 by decide +kernel]
    norm_num [numeral, Nat.ofDigitChars]
  refine ⟨⟨hbelow, hsmall, ?_⟩, habove, hlarge, ?_⟩
  · obtain ⟨-, htoken⟩ := @rounds_tokenize "16777217".toList ['0'] source (by decide)
      (by decide) (List.all_eq_true.1 (by decide))
    obtain ⟨-, hrounds⟩ := htoken below hbelow (by decide)
    obtain ⟨-, x, hx, hiff⟩ := hrounds.nearest (by rw [hsmall]; norm_num)
    cases hx
    rw [← hsmall]
    exact ((hiff _).1 rfl).2
  · obtain ⟨-, htoken⟩ := @rounds_tokenize "340282356779733661637539395458142568448".toList ['0']
      source (by decide) (by decide) (List.all_eq_true.1 (by decide))
    obtain ⟨-, hrounds⟩ := htoken above habove (by decide)
    exact hrounds.outOfRange hlarge.ge

end Decimal

end ImagingLexer
