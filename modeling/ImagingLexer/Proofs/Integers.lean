import ImagingLexer.Proofs.MaximalMunch

/-! # Integers

Whole parts are the decimal numerals of the natural numbers, one numeral a number. So a
scan reads every number back from its numeral, and an integer token has no other text than
the numeral of its value.
-/

namespace ImagingLexer

open Lexeme

/-- The kind and the value of the token that stands for a number. -/
inductive Represents (n : Nat) : Kind → Value → Prop
  | inRange {value : Int32} : n ≤ 2147483647 → value.toInt = n → Represents n .intLit (.int value)
  | outOfRange : 2147483647 < n → Represents n .error (.error .integerOutOfRange)

section Numerals

theorem digitChar_of_isDigit {c : Char} (h : c.isDigit = true) :
    c.toNat - '0'.toNat < 10 ∧ Nat.digitChar (c.toNat - '0'.toNat) = c := by
  have hbounds : 48 ≤ c.toNat ∧ c.toNat ≤ 57 := by
    simpa [Char.isDigit, UInt32.le_iff_toNat_le] using h
  have hzero : '0'.toNat = 48 := rfl
  have hlt : c.toNat - '0'.toNat < 10 := by omega
  refine ⟨hlt, Char.toNat_inj.1 ?_⟩
  rw [Nat.toNat_digitChar_of_lt_ten hlt]
  omega

theorem toDigits_append_digits {digits : List Char} {n : Nat} (hn : 0 < n)
    (hdigits : ∀ c ∈ digits, c.isDigit = true) :
    Nat.toDigits 10 n ++ digits = Nat.toDigits 10 (Nat.ofDigitChars 10 digits n) := by
  induction digits generalizing n with
  | nil => rw [Nat.ofDigitChars_nil, List.append_nil]
  | cons c digits ih =>
    obtain ⟨hc, hdigits⟩ := List.forall_mem_cons.1 hdigits
    obtain ⟨hlt, hchar⟩ := digitChar_of_isDigit hc
    rw [Nat.ofDigitChars_cons, ← ih (by omega) hdigits,
      ← Nat.toDigits_append_toDigits (by decide) hn hlt, Nat.toDigits_of_lt_base hlt, hchar,
      List.append_assoc, List.singleton_append]

theorem toDigits_numeral {digits : List Char} (h : IsWhole digits) :
    Nat.toDigits 10 (numeral digits) = digits := by
  cases h with
  | zero => rfl
  | @digits d rest hd hzero hrest =>
    obtain ⟨hlt, hchar⟩ := digitChar_of_isDigit hd
    have hpos : 0 < d.toNat - '0'.toNat := by
      rw [Nat.pos_iff_ne_zero]
      intro heq
      rw [heq] at hchar
      exact hzero hchar.symm
    rw [numeral, Nat.ofDigitChars_cons, Nat.mul_zero, Nat.zero_add,
      ← toDigits_append_digits hpos hrest, Nat.toDigits_of_lt_base hlt, hchar,
      List.singleton_append]

theorem numeral_toDigits (n : Nat) : numeral (Nat.toDigits 10 n) = n :=
  Nat.ofDigitChars_ten_toDigits

theorem isWhole_toDigits (n : Nat) : IsWhole (Nat.toDigits 10 n) := by
  induction n using Nat.strongRecOn with
  | ind n ih =>
    rcases Nat.lt_or_ge n 10 with hlt | hge
    · rw [Nat.toDigits_of_lt_base hlt]
      rcases Nat.eq_zero_or_pos n with rfl | hpos
      · exact .zero
      · refine .digits ?_ ?_ (List.forall_mem_nil _)
        · simpa [Nat.isDigit_digitChar] using hlt
        · rw [Ne, Nat.digitChar_eq_zero]
          omega
    · rw [Nat.toDigits_of_base_le (by decide) hge]
      have hlast : (n % 10).digitChar.isDigit = true := by
        simp [Nat.isDigit_digitChar, Nat.mod_lt]
      have hvalue := numeral_toDigits (n / 10)
      have hwhole := ih (n / 10) (by omega)
      generalize Nat.toDigits 10 (n / 10) = digits at *
      cases hwhole with
      | zero =>
        have hten : 0 = n / 10 := hvalue
        omega
      | digits hd hzero hrest => exact .digits hd hzero (forall_mem_concat hrest hlast)

end Numerals

section Tokens

theorem Classified.represents {rule : Rule} {word rest : List Char} {kind : Kind} {value : Value}
    (h : Classified rule word rest kind value)
    (hsort : kind = .intLit ∨ value = .error .integerOutOfRange) :
    IsWhole word ∧ Represents (numeral word) kind value := by
  cases h with
  | integer hwhole hle hvalue => exact ⟨hwhole, .inRange hle hvalue⟩
  | integerOutOfRange hwhole hgt => exact ⟨hwhole, .outOfRange hgt⟩
  | reserved hmem =>
    have hall : ∀ entry ∈ reservedWords,
        ¬ (entry.2.1 = .intLit ∨ entry.2.2 = .error .integerOutOfRange) := by
      decide
    exact absurd hsort (hall _ hmem)
  | _ => rcases hsort with hsort | hsort <;> cases hsort

theorem exists_represents (n : Nat) :
    ∃ kind value, Represents n kind value ∧
      (integer (Nat.toDigits 10 n)).sort? = some (kind, value) := by
  have hnumeral := numeral_toDigits n
  rcases Nat.lt_or_ge 2147483647 n with hgt | hle
  · exact ⟨_, _, .outOfRange hgt, sort?_integer_of_gt (by omega)⟩
  · have hvalue : (Int32.ofNat n).toInt = n := Int32.toInt_ofNat_of_lt (Nat.lt_succ_of_le hle)
    exact ⟨_, _, .inRange hle hvalue, sort?_integer_of_le (by omega) (by rw [hvalue, hnumeral])⟩

/-- The numeral of a number is scanned to a single token, which stands for the number, and the
tokens that stand for a number or are out of range for one have its numeral as their text. -/
theorem numeral_tokenize :
    (∀ n : Nat, ∃ kind value, Represents n kind value ∧
      (tokenize (toString n)).value.tokens.toList =
        [⟨kind, toString n, ⟨0, (toString n).length, 0, 0⟩, value⟩,
          ⟨.eof, "", ⟨(toString n).length, (toString n).length, 0, (toString n).length⟩,
            .absent⟩]) ∧
    ∀ (source : String) (token : Token), token ∈ (tokenize source).value.tokens.toList →
      token.kind = .intLit ∨ token.value = .error .integerOutOfRange →
        ∃ n : Nat, token.text = toString n ∧ Represents n token.kind token.value := by
  constructor
  · intro n
    obtain ⟨kind, value, hrepresents, hsort⟩ := exists_represents n
    have hwhole := isWhole_toDigits n
    have hstop : (integer (Nat.toDigits 10 n)).StopsBefore none := by rintro c ⟨⟩
    have hparts : (integer (Nat.toDigits 10 n)).WellFormed := hwhole
    have htokens := tokens_tokenize_text hparts hstop hsort
    have hlines : '\n' ∉ Nat.toDigits 10 n := by
      intro hmem
      have := hwhole.isDigit _ hmem
      simp at this
    refine ⟨kind, value, hrepresents, ?_⟩
    rw [Nat.toString_eq_ofList_toDigits, String.length_ofList]
    simpa [Lexeme.text, endToken, Span.after, byteLength_of_isDigit hwhole.isDigit,
      LineIndex.after_of_not_mem hlines] using htokens
  · intro source token hmem hsort
    rcases classified_of_mem_tokenize hmem with rfl | ⟨c, -, hkind, hvalue⟩ |
      ⟨rule, rest, -, hclassified⟩
    · rcases hsort with hsort | hsort <;> cases hsort
    · rw [hkind, hvalue] at hsort
      simp at hsort
    · obtain ⟨hwhole, hrepresents⟩ := hclassified.represents hsort
      refine ⟨_, ?_, hrepresents⟩
      rw [Nat.toString_eq_ofList_toDigits, toDigits_numeral hwhole, String.ofList_toList]

theorem numeral_tokenize_leading_zeros :
    let source := "007 2147483648"
    let seven : Token := ⟨.intLit, "7", ⟨2, 3, 0, 2⟩, .int 7⟩
    let large : Token := ⟨.error, "2147483648", ⟨4, 14, 0, 4⟩, .error .integerOutOfRange⟩
    (seven ∈ (tokenize source).value.tokens.toList ∧
      ∃ n : Nat, "7" = toString n ∧ Represents n .intLit (.int 7)) ∧
    large ∈ (tokenize source).value.tokens.toList ∧
      ∃ n : Nat, "2147483648" = toString n ∧ Represents n .error (.error .integerOutOfRange) := by
  intro source seven large
  have hseven : seven ∈ (tokenize source).value.tokens.toList :=
    List.mem_of_getElem? (i := 2) (by decide +kernel)
  have hlarge : large ∈ (tokenize source).value.tokens.toList :=
    List.mem_of_getElem? (i := 3) (by decide +kernel)
  obtain ⟨-, htoken⟩ := numeral_tokenize
  exact ⟨⟨hseven, htoken source seven hseven (.inl rfl)⟩,
    hlarge, htoken source large hlarge (.inr rfl)⟩

end Tokens

end ImagingLexer
