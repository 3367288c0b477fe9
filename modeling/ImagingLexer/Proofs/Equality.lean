import ImagingLexer.Proofs.Scan

/-! # Equality of token buffers

Buffers are compared part by part, with floats compared as numbers. A float of a token is
rounded from decimal digits, so it is neither a NaN nor a negative zero, and on the buffers of
sources the comparison is plain equality.
-/

namespace ImagingLexer

namespace Binary32

variable {x y : Binary32}

theorem eq_of_toNat (h : x.bits.toNat = y.bits.toNat) : x = y := by
  obtain ⟨bits⟩ := x
  exact congrArg mk (UInt32.toNat.inj h)

theorem isNegative_eq_false_iff : x.isNegative = false ↔ x.bits.toNat < 0x80000000 := by
  simp [isNegative]

theorem isZero_iff : x.isZero = true ↔ x.field = 0 ∧ x.fraction = 0 := by
  simp [isZero]

/-- Only the two zeros are equal without being the same word. -/
theorem eq_of_beq (hx : x.isNegative = false) (hy : y.isNegative = false)
    (h : (x == y) = true) : x = y := by
  rw [isNegative_eq_false_iff] at hx hy
  rw [beq_def, Bool.and_eq_true, Bool.or_eq_true, Bool.and_eq_true (x.isZero), isZero_iff,
    isZero_iff, decide_eq_true_eq] at h
  apply eq_of_toNat
  rcases h with ⟨-, hbits | ⟨⟨hfield, hfraction⟩, hfield', hfraction'⟩⟩
  · rw [hbits]
  · unfold field at hfield hfield'
    unfold fraction at hfraction hfraction'
    omega

end Binary32

namespace Value

theorem eq_of_beq {a b : Value} (ha : a.IsPlain) (hb : b.IsPlain) (h : (a == b) = true) :
    a = b := by
  cases a <;> cases b
  case float.float x y => exact congrArg float (Binary32.eq_of_beq (ha x rfl).2 (hb y rfl).2 h)
  case absent.absent => rfl
  case int.int value value' => exact congrArg int (LawfulBEq.eq_of_beq h)
  case boolean.boolean value value' => exact congrArg boolean (LawfulBEq.eq_of_beq h)
  case string.string content content' => exact congrArg string (LawfulBEq.eq_of_beq h)
  case error.error fault fault' => exact congrArg error (LawfulBEq.eq_of_beq h)
  all_goals cases h

theorem beq_self {a : Value} (ha : a.IsPlain) : (a == a) = true := by
  cases a with
  | float x => exact Binary32.beq_self_iff.2 (ha x rfl).1
  | absent => rfl
  | int value => exact BEq.refl value
  | boolean value => exact BEq.refl value
  | string content => exact BEq.refl content
  | error fault => exact BEq.refl fault

end Value

namespace Token

theorem beq_def (a b : Token) :
    (a == b) = (a.kind == b.kind && (a.text == b.text &&
      (a.span == b.span && a.value == b.value))) := rfl

theorem eq_of_beq {a b : Token} (ha : a.value.IsPlain) (hb : b.value.IsPlain)
    (h : (a == b) = true) : a = b := by
  rw [beq_def, Bool.and_eq_true, Bool.and_eq_true, Bool.and_eq_true, beq_iff_eq, beq_iff_eq,
    beq_iff_eq] at h
  obtain ⟨hkind, htext, hspan, hvalue⟩ := h
  rw [Token.mk.injEq]
  exact ⟨hkind, htext, hspan, Value.eq_of_beq ha hb hvalue⟩

theorem beq_self {a : Token} (ha : a.value.IsPlain) : (a == a) = true := by
  simp [beq_def, Value.beq_self ha]

end Token

namespace TokenBuffer

theorem beq_def (a b : TokenBuffer) :
    (a == b) = (a.tokens == b.tokens && a.lineIndex == b.lineIndex &&
      a.errorCount == b.errorCount) := rfl

/-- Without NaNs and negative zeros the comparison is equality. -/
theorem beq_iff {a b : TokenBuffer} (ha : ∀ token ∈ a.tokens, token.value.IsPlain)
    (hb : ∀ token ∈ b.tokens, token.value.IsPlain) : (a == b) = true ↔ a = b := by
  constructor
  · intro h
    rw [beq_def, Bool.and_eq_true, Bool.and_eq_true] at h
    obtain ⟨⟨htokens, hindex⟩, herrors⟩ := h
    obtain ⟨hsize, htokens⟩ := Array.isEqv_iff_rel.1 htokens
    apply TokenBuffer.ext
    · apply Array.ext hsize
      intro i hi hi'
      exact Token.eq_of_beq (ha _ (Array.getElem_mem hi)) (hb _ (Array.getElem_mem hi'))
        (htokens i hi)
    · exact eq_of_beq hindex
    · exact eq_of_beq herrors
  · rintro rfl
    have htokens : (a.tokens == a.tokens) = true :=
      Array.isEqv_iff_rel.2 ⟨rfl, fun i hi => Token.beq_self (ha _ (Array.getElem_mem hi))⟩
    simp [beq_def, htokens]

end TokenBuffer

theorem isPlain_of_mem_tokenize {source : String} {token : Token}
    (h : token ∈ (tokenize source).value.tokens) : token.value.IsPlain := by
  rcases mem_tokens_tokenize_iff.1 (Array.mem_toList_iff.2 h) with h | rfl
  · obtain ⟨a, lexeme, b, kind, value, -, hsort, rfl⟩ := exists_of_mem_tokensAfter h
    exact Lexeme.isPlain_of_sort? hsort
  · rintro x ⟨⟩

theorem beq_tokenize_iff (a b : String) :
    ((tokenize a).value == (tokenize b).value) = true ↔
      (tokenize a).value = (tokenize b).value :=
  TokenBuffer.beq_iff (fun _ => isPlain_of_mem_tokenize) (fun _ => isPlain_of_mem_tokenize)

end ImagingLexer
