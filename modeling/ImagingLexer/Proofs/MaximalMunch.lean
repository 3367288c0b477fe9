import ImagingLexer.Proofs.Binary32.Range
import ImagingLexer.Proofs.Grammar
import ImagingLexer.Proofs.Scan

/-! # Maximal munch

Scanning is taking the longest word of the grammar off a text until nothing is left, one
character where there is no such word. What a word means depends on its rule and its text
only, except that a string without its closing quote is unterminated or cut according to
whether anything follows.
-/

namespace ImagingLexer

open Lexeme

def numeral (digits : List Char) : Nat := Nat.ofDigitChars 10 digits 0

/-- The words that are no identifiers, each with its kind and its value. -/
def reservedWords : List (String × Kind × Value) :=
  [("if", .keyword .kwIf, .absent), ("fi", .keyword .kwFi, .absent),
    ("else", .keyword .kwElse, .absent), ("write", .keyword .kwWrite, .absent),
    ("console", .keyword .kwConsole, .absent), ("void", .keyword .kwVoid, .absent),
    ("int", .typeName, .absent), ("float", .typeName, .absent), ("string", .typeName, .absent),
    ("boolean", .typeName, .absent), ("color", .typeName, .absent), ("image", .typeName, .absent),
    ("true", .booleanLit, .boolean true), ("false", .booleanLit, .boolean false),
    ("BLACK", .colorConst, .absent), ("BLUE", .colorConst, .absent),
    ("CYAN", .colorConst, .absent), ("DARK_GRAY", .colorConst, .absent),
    ("GRAY", .colorConst, .absent), ("GREEN", .colorConst, .absent),
    ("LIGHT_GRAY", .colorConst, .absent), ("MAGENTA", .colorConst, .absent),
    ("ORANGE", .colorConst, .absent), ("PINK", .colorConst, .absent),
    ("RED", .colorConst, .absent), ("WHITE", .colorConst, .absent),
    ("YELLOW", .colorConst, .absent), ("getRed", .colorOp, .absent),
    ("getGreen", .colorOp, .absent), ("getBlue", .colorOp, .absent),
    ("getWidth", .imageOp, .absent), ("getHeight", .imageOp, .absent)]

/-- The kind and the value of a word of the grammar that `rest` follows. -/
inductive Classified : Rule → List Char → List Char → Kind → Value → Prop
  | operator {text : String} {op : Operator} {rest : List Char} :
      (text, op) ∈ Rule.operators →
      Classified .operator text.toList rest (.operator op) .absent
  | integer {digits rest : List Char} {value : Int32} : IsWhole digits →
      numeral digits ≤ 2147483647 → value.toInt = numeral digits →
      Classified .number digits rest .intLit (.int value)
  | integerOutOfRange {digits rest : List Char} : IsWhole digits →
      2147483647 < numeral digits →
      Classified .number digits rest .error (.error .integerOutOfRange)
  | missingFractionDigits {whole rest : List Char} : IsWhole whole →
      Classified .number (whole ++ ['.']) rest .error (.error .missingFractionDigits)
  | decimal {whole fraction rest : List Char} {value : Binary32} : IsWhole whole →
      fraction ≠ [] → (∀ c ∈ fraction, c.isDigit = true) →
      numeral (whole ++ fraction) < Binary32.overflow * 10 ^ fraction.length →
      Binary32.ofDecimal? whole fraction = some value →
      Classified .number (whole ++ '.' :: fraction) rest .floatLit (.float value)
  | floatOutOfRange {whole fraction rest : List Char} : IsWhole whole →
      fraction ≠ [] → (∀ c ∈ fraction, c.isDigit = true) →
      Binary32.overflow * 10 ^ fraction.length ≤ numeral (whole ++ fraction) →
      Classified .number (whole ++ '.' :: fraction) rest .error (.error .floatOutOfRange)
  | reserved {text : String} {rest : List Char} {kind : Kind} {value : Value} :
      (text, kind, value) ∈ reservedWords →
      Classified .name text.toList rest kind value
  | ident {letters rest : List Char} :
      (∀ entry ∈ reservedWords, entry.1.toList ≠ letters) →
      Classified .name letters rest .ident .absent
  | quoted {content rest : List Char} : (∀ c ∈ content, IsContent c) →
      Classified .string ('"' :: content ++ ['"']) rest .stringLit
        (.string (String.ofList content))
  | unterminated {content : List Char} : (∀ c ∈ content, IsContent c) →
      Classified .string ('"' :: content) [] .error (.error .unterminatedString)
  | cut {content rest : List Char} : (∀ c ∈ content, IsContent c) → rest ≠ [] →
      Classified .string ('"' :: content) rest .error (.error .illegalStringCharacter)

structure Reading where
  offset : Nat
  kind : Kind
  text : String
  value : Value
  deriving DecidableEq, Repr

def Token.reading (token : Token) : Reading :=
  ⟨token.span.start, token.kind, token.text, token.value⟩

/-- The readings of a text that stands at `offset`, by the longest match at every point. -/
inductive Munch : Nat → List Char → List Reading → Prop
  | finish {offset : Nat} : Munch offset [] [⟨offset, .eof, "", .absent⟩]
  | skip {offset : Nat} {rule : Rule} {word rest : List Char} {readings : List Reading} :
      rule = .blank ∨ rule = .comment → rule.Longest word rest →
      Munch (offset + byteLength word) rest readings → Munch offset (word ++ rest) readings
  | take {offset : Nat} {rule : Rule} {word rest : List Char} {kind : Kind} {value : Value}
      {readings : List Reading} : rule.Longest word rest → Classified rule word rest kind value →
      Munch (offset + byteLength word) rest readings →
      Munch offset (word ++ rest) (⟨offset, kind, String.ofList word, value⟩ :: readings)
  | stray {offset : Nat} {c : Char} {rest : List Char} {readings : List Reading} :
      (∀ (rule : Rule) (word : List Char), rule.Admits word → ¬ word <+: c :: rest) →
      Munch (offset + c.utf8Size) rest readings →
      Munch offset (c :: rest)
        (⟨offset, .error, String.singleton c, .error .illegalCharacter⟩ :: readings)

namespace Reserved

variable {text : String} {kind : Kind}

theorem lookup_eq_some_iff :
    lookup text = some kind ↔ ∃ value, (text, kind, value) ∈ reservedWords := by
  constructor
  · intro h
    unfold lookup at h
    split at h <;> cases h <;> exact ⟨_, by simp [reservedWords]; rfl⟩
  · have hall : ∀ entry ∈ reservedWords, lookup entry.1 = some entry.2.1 := by decide
    rintro ⟨value, hmem⟩
    exact hall _ hmem

theorem lookup_eq_none_iff :
    lookup text = none ↔ ∀ entry ∈ reservedWords, entry.1.toList ≠ text.toList := by
  simp only [ne_eq, String.toList_inj]
  constructor
  · rintro h ⟨_, kind, value⟩ hentry rfl
    rw [lookup_eq_some_iff.2 ⟨value, hentry⟩] at h
    cases h
  · intro h
    rw [Option.eq_none_iff_forall_ne_some]
    intro kind hlookup
    obtain ⟨value, hmem⟩ := lookup_eq_some_iff.1 hlookup
    exact h _ hmem rfl

end Reserved

namespace Meaning

variable {rest : List Char} {kind : Kind} {value : Value}

theorem classified_ofInteger {digits : List Char} (hwhole : IsWhole digits)
    (h : (ofInteger digits).sort? = some (kind, value)) :
    Classified .number digits rest kind value := by
  unfold ofInteger at h
  dsimp only at h
  split at h
  next hle =>
    obtain ⟨rfl, rfl⟩ := Prod.mk.inj (Option.some.inj h)
    exact .integer hwhole hle (Int32.toInt_ofNat_of_lt (Nat.lt_succ_of_le hle))
  next hgt =>
    obtain ⟨rfl, rfl⟩ := Prod.mk.inj (Option.some.inj h)
    exact .integerOutOfRange hwhole (Nat.lt_of_not_le hgt)

theorem isSome_ofDecimal?_iff {whole fraction : List Char} :
    (Binary32.ofDecimal? whole fraction).isSome = true ↔
      numeral (whole ++ fraction) < Binary32.overflow * 10 ^ fraction.length :=
  Binary32.isSome_ofRatio?_iff (Nat.pow_pos (by decide))

theorem classified_ofDecimal {whole fraction : List Char} (hwhole : IsWhole whole)
    (hsome : fraction ≠ []) (hfraction : ∀ c ∈ fraction, c.isDigit = true)
    (h : (ofDecimal whole fraction).sort? = some (kind, value)) :
    Classified .number (whole ++ '.' :: fraction) rest kind value := by
  have hrange := @isSome_ofDecimal?_iff whole fraction
  cases hrounded : Binary32.ofDecimal? whole fraction with
  | some rounded =>
    rw [hrounded] at hrange
    simp only [ofDecimal, hrounded] at h
    obtain ⟨rfl, rfl⟩ := Prod.mk.inj (Option.some.inj h)
    exact .decimal hwhole hsome hfraction (hrange.1 rfl) hrounded
  | none =>
    rw [hrounded] at hrange
    simp only [ofDecimal, hrounded] at h
    obtain ⟨rfl, rfl⟩ := Prod.mk.inj (Option.some.inj h)
    refine .floatOutOfRange hwhole hsome hfraction (Nat.le_of_not_lt fun hlt => ?_)
    cases hrange.2 hlt

theorem ofWord_of_mem {text : String} (h : (text, kind, value) ∈ reservedWords) :
    ofWord text = token kind value := by
  have hall : ∀ entry ∈ reservedWords, ofWord entry.1 = token entry.2.1 entry.2.2 := by decide
  exact hall _ h

theorem classified_ofWord {text : String}
    (h : (ofWord text).sort? = some (kind, value)) :
    Classified .name text.toList rest kind value := by
  cases hlookup : Reserved.lookup text with
  | none =>
    simp only [ofWord, hlookup, sort?, Option.some.injEq, Prod.mk.injEq] at h
    obtain ⟨rfl, rfl⟩ := h
    exact .ident (Reserved.lookup_eq_none_iff.1 hlookup)
  | some found =>
    obtain ⟨_, hmem⟩ := Reserved.lookup_eq_some_iff.1 hlookup
    rw [ofWord_of_mem hmem] at h
    obtain ⟨rfl, rfl⟩ := Prod.mk.inj (Option.some.inj h)
    exact .reserved hmem

end Meaning

namespace Lexeme

variable {lexeme : Lexeme} {rule : Rule} {word rest : List Char} {kind : Kind} {value : Value}

theorem classified_of_sort? (h : lexeme.WellFormed) (hstop : lexeme.StopsBefore rest.head?)
    (hrule : lexeme.rule? = some rule) (hsort : lexeme.sort? = some (kind, value)) :
    Classified rule lexeme.text rest kind value := by
  cases lexeme <;> cases hrule
  case blank | comment => cases hsort
  case operator op =>
    cases hsort
    have := @Classified.operator op.spelling op rest (Rule.mem_operators_iff.2 rfl)
    rwa [Operator.spelling, String.toList_ofList] at this
  case integer digits => exact Meaning.classified_ofInteger h hsort
  case decimal whole fraction => exact Meaning.classified_ofDecimal h.1 h.2.1 h.2.2 hsort
  case openDecimal whole =>
    cases hsort
    exact .missingFractionDigits h
  case word letters =>
    have := @Meaning.classified_ofWord rest kind value _ hsort
    rwa [String.toList_ofList] at this
  case quoted content =>
    cases hsort
    exact .quoted (isContent_of_isStringPart h)
  case cutQuoted content =>
    cases hsort
    obtain ⟨c, hc, -⟩ := hstop
    exact .cut (isContent_of_isStringPart h) (by rintro rfl; cases hc)
  case openQuoted content =>
    cases hsort
    obtain rfl := List.head?_eq_none_iff.1 hstop
    exact .unterminated (isContent_of_isStringPart h)

theorem sort?_integer_of_le {digits : List Char} {value : Int32}
    (hle : numeral digits ≤ 2147483647) (hvalue : value.toInt = numeral digits) :
    (integer digits).sort? = some (.intLit, .int value) := by
  have hofNat : Int32.ofNat (numeral digits) = value :=
    Int32.toInt.inj ((Int32.toInt_ofNat_of_lt (Nat.lt_succ_of_le hle)).trans hvalue.symm)
  rw [numeral] at hle hofNat
  simp only [sort?, meaning, Meaning.ofInteger, hle, if_true, hofNat]
  rfl

theorem sort?_integer_of_gt {digits : List Char} (hgt : 2147483647 < numeral digits) :
    (integer digits).sort? = some (.error, .error .integerOutOfRange) := by
  have hgt : ¬ numeral digits ≤ 2147483647 := Nat.not_le_of_lt hgt
  rw [numeral] at hgt
  simp only [sort?, meaning, Meaning.ofInteger, hgt, if_false]
  rfl

theorem sort?_decimal_of_le {whole fraction : List Char}
    (hle : Binary32.overflow * 10 ^ fraction.length ≤ numeral (whole ++ fraction)) :
    (decimal whole fraction).sort? = some (.error, .error .floatOutOfRange) := by
  have hnone : Binary32.ofDecimal? whole fraction = none := by
    rw [← Option.not_isSome_iff_eq_none, Meaning.isSome_ofDecimal?_iff]
    exact Nat.not_lt_of_le hle
  simp only [sort?, meaning, Meaning.ofDecimal, hnone]
  rfl

theorem sort?_word_of_mem {text : String} (h : (text, kind, value) ∈ reservedWords) :
    (Lexeme.word text.toList).sort? = some (kind, value) := by
  rw [sort?, meaning, String.ofList_toList, Meaning.ofWord_of_mem h]
  rfl

theorem sort?_word_of_not_mem {letters : List Char}
    (h : ∀ entry ∈ reservedWords, entry.1.toList ≠ letters) :
    (Lexeme.word letters).sort? = some (.ident, .absent) := by
  have hnone : Reserved.lookup (String.ofList letters) = none := by
    rwa [Reserved.lookup_eq_none_iff, String.toList_ofList]
  simp only [sort?, meaning, Meaning.ofWord, hnone]
  rfl

theorem exists_of_longest {sort : Option (Kind × Value)} (lexeme : Lexeme)
    (hparts : lexeme.WellFormed) (hrule : lexeme.rule? = some rule)
    (hlongest : rule.Longest lexeme.text rest) (hsort : lexeme.sort? = sort)
    (hcut : ∀ content, lexeme = cutQuoted content → rest ≠ [] := by simp)
    (hopen : ∀ content, lexeme = openQuoted content → rest = [] := by simp) :
    ∃ found : Lexeme, found.WellFormed ∧ found.StopsBefore rest.head? ∧
      found.text = lexeme.text ∧ found.sort? = sort :=
  ⟨lexeme, hparts, stopsBefore_of_longest hparts hrule hcut hopen hlongest, rfl, hsort⟩

theorem exists_word (hlongest : Rule.name.Longest word rest)
    (hsort : (Lexeme.word word).sort? = some (kind, value)) :
    ∃ lexeme : Lexeme, lexeme.WellFormed ∧ lexeme.StopsBefore rest.head? ∧
      lexeme.text = word ∧ lexeme.sort? = some (kind, value) :=
  exists_of_longest (.word word) (Rule.admits_name_iff.1 hlongest.admits) rfl hlongest hsort

theorem exists_of_classified (h : Classified rule word rest kind value)
    (hlongest : rule.Longest word rest) :
    ∃ lexeme : Lexeme, lexeme.WellFormed ∧ lexeme.StopsBefore rest.head? ∧
      lexeme.text = word ∧ lexeme.sort? = some (kind, value) := by
  cases h with
  | @operator text op _ hmem =>
    obtain rfl := Rule.mem_operators_iff.1 hmem
    rw [Operator.spelling, String.toList_ofList] at hlongest ⊢
    exact exists_of_longest (.operator op) trivial rfl hlongest rfl
  | integer hwhole hle hvalue =>
    exact exists_of_longest (.integer word) hwhole rfl hlongest (sort?_integer_of_le hle hvalue)
  | integerOutOfRange hwhole hgt =>
    exact exists_of_longest (.integer word) hwhole rfl hlongest (sort?_integer_of_gt hgt)
  | @missingFractionDigits whole _ hwhole =>
    exact exists_of_longest (.openDecimal whole) hwhole rfl hlongest rfl
  | @decimal whole fraction _ _ hwhole hsome hfraction _ hrounded =>
    apply exists_of_longest (.decimal whole fraction) ⟨hwhole, hsome, hfraction⟩ rfl hlongest
    simp only [sort?, meaning, Meaning.ofDecimal, hrounded]
    rfl
  | @floatOutOfRange whole fraction _ hwhole hsome hfraction hle =>
    apply exists_of_longest (.decimal whole fraction) ⟨hwhole, hsome, hfraction⟩ rfl hlongest
    exact sort?_decimal_of_le hle
  | reserved hmem => exact exists_word hlongest (sort?_word_of_mem hmem)
  | ident hfree => exact exists_word hlongest (sort?_word_of_not_mem hfree)
  | @quoted content _ hcontent =>
    exact exists_of_longest (.quoted content) (isStringPart_of_isContent hcontent) rfl hlongest rfl
  | @unterminated content hcontent =>
    exact exists_of_longest (.openQuoted content) (isStringPart_of_isContent hcontent) rfl hlongest rfl
  | @cut content _ hcontent hne =>
    exact exists_of_longest (.cutQuoted content) (isStringPart_of_isContent hcontent) rfl hlongest
      rfl (fun _ _ => hne)

theorem exists_of_skipped (hrule : rule = .blank ∨ rule = .comment)
    (hlongest : rule.Longest word rest) :
    ∃ lexeme : Lexeme, lexeme.WellFormed ∧ lexeme.StopsBefore rest.head? ∧
      lexeme.text = word ∧ lexeme.sort? = none := by
  rcases hrule with rfl | rfl
  · cases hlongest.admits with
    | @blank c hc =>
      have hparts : (Lexeme.blank c).WellFormed := by
        simpa [WellFormed, isBlank, or_assoc] using hc
      exact exists_of_longest (.blank c) hparts rfl hlongest rfl
  · cases hlongest.admits with
    | @comment body hbody =>
      have hparts : (Lexeme.comment body).WellFormed := by
        rintro c hc rfl
        exact hbody hc
      exact exists_of_longest (.comment body) hparts rfl hlongest rfl

theorem token?_stray (before : List Char) (c : Char) :
    (stray c).token? before =
      some ⟨.error, String.singleton c, .after before [c], .error .illegalCharacter⟩ := by
  rw [String.singleton_eq_ofList]
  rfl

theorem eq_stray_of_rule?_eq_none (h : lexeme.rule? = none) : ∃ c, lexeme = stray c := by
  cases lexeme with
  | stray c => exact ⟨c, rfl⟩
  | _ => cases h

theorem first_eq_stray {c : Char} {rest : List Char}
    (h : ∀ (rule : Rule) (word : List Char), rule.Admits word → ¬ word <+: c :: rest) :
    first c rest = (stray c, rest) := by
  obtain ⟨hparts, -⟩ := first_spec c rest
  have htext := text_append_first c rest
  generalize first c rest = found at hparts htext
  obtain ⟨lexeme, after⟩ := found
  cases hrule : lexeme.rule? with
  | some rule => exact absurd ⟨after, htext⟩ (h rule _ (admits_text hparts hrule))
  | none =>
    obtain ⟨d, rfl⟩ := eq_stray_of_rule?_eq_none hrule
    obtain ⟨rfl, rfl⟩ := List.cons.inj htext
    rfl

end Lexeme

def readingsAfter (before text : List Char) : List Reading :=
  (tokensAfter before (lexemes text) ++ [endToken (before ++ text)]).map Token.reading

theorem readingsAfter_text_append {lexeme : Lexeme} {before rest : List Char}
    (hparts : lexeme.WellFormed) (hstop : lexeme.StopsBefore rest.head?) :
    readingsAfter before (lexeme.text ++ rest) =
      (lexeme.token? before).toList.map Token.reading ++
        readingsAfter (before ++ lexeme.text) rest := by
  simp [readingsAfter, lexemes_text_append hparts hstop]

theorem eq_readingsAfter_of_munch {offset : Nat} {text : List Char} {readings : List Reading}
    (h : Munch offset text readings) (before : List Char) (hoffset : offset = byteLength before) :
    readings = readingsAfter before text := by
  induction h generalizing before with
  | finish => simp [readingsAfter, Token.reading, endToken, Span.after, hoffset]
  | skip hrule hlongest _ ih =>
    obtain ⟨lexeme, hparts, hstop, rfl, hsort⟩ := exists_of_skipped hrule hlongest
    rw [readingsAfter_text_append hparts hstop, ih (before ++ lexeme.text) (by simp [hoffset])]
    simp [Lexeme.token?, hsort]
  | take hlongest hclassified _ ih =>
    obtain ⟨lexeme, hparts, hstop, rfl, hsort⟩ := exists_of_classified hclassified hlongest
    rw [readingsAfter_text_append hparts hstop, ih (before ++ lexeme.text) (by simp [hoffset])]
    simp [Lexeme.token?, hsort, Token.reading, Span.after, hoffset]
  | @stray _ c rest _ hnone _ ih =>
    obtain ⟨hparts, hstop, -⟩ := first_eq_iff.1 (first_eq_stray hnone)
    have hcons := @readingsAfter_text_append (.stray c) before rest hparts hstop
    rw [Lexeme.text, List.singleton_append] at hcons
    rw [hcons, ih (before ++ [c]) (by simp [hoffset])]
    simp [token?_stray, Token.reading, Span.after, hoffset]

theorem munch_readingsAfter (before text : List Char) :
    Munch (byteLength before) text (readingsAfter before text) := by
  fun_induction lexemes text generalizing before with
  | case1 =>
    simp only [readingsAfter, lexemes_nil, tokensAfter_nil, List.append_nil, List.nil_append]
    exact .finish
  | case2 c rest ih =>
    obtain ⟨hparts, hstop⟩ := first_spec c rest
    rw [← text_append_first c rest, readingsAfter_text_append hparts hstop]
    have hrest := ih (before ++ (first c rest).1.text)
    rw [byteLength_append] at hrest
    generalize first c rest = found at hparts hstop hrest
    obtain ⟨lexeme, after⟩ := found
    dsimp only at *
    cases hrule : lexeme.rule? with
    | none =>
      obtain ⟨d, rfl⟩ := eq_stray_of_rule?_eq_none hrule
      have hnone : ∀ (rule : Rule) (word : List Char), rule.Admits word →
          ¬ word <+: d :: after := by
        rintro rule word hadmits ⟨more, htext⟩
        obtain ⟨e, letters, rfl⟩ := List.exists_cons_of_ne_nil hadmits.ne_nil
        obtain ⟨rfl, -⟩ := List.cons.inj htext
        have hhead := (ofFirst?_head_text hparts).symm.trans hadmits.ofFirst?_head
        cases hhead
      simpa [token?_stray, Lexeme.text, Token.reading, Span.after] using Munch.stray hnone hrest
    | some rule =>
      have hlongest := longest_of_stopsBefore hparts hrule hstop
      cases hsort : lexeme.sort? with
      | none =>
        have hskipped : rule = .blank ∨ rule = .comment := by
          rcases sort?_eq_none_iff.1 hsort with ⟨d, rfl⟩ | ⟨body, rfl⟩ <;> cases hrule <;> simp
        simpa [Lexeme.token?, hsort] using Munch.skip hskipped hlongest hrest
      | some sort =>
        have hclassified := classified_of_sort? hparts hstop hrule hsort
        simpa [Lexeme.token?, hsort, Token.reading, Span.after] using
          Munch.take hlongest hclassified hrest

/-- A token before the end is a stray character or a longest word of the grammar. -/
theorem classified_of_mem_tokenize {source : String} {token : Token}
    (h : token ∈ (tokenize source).value.tokens.toList) :
    token = endToken source.toList ∨
      (∃ c, token.text = String.singleton c ∧ token.kind = .error ∧
        token.value = .error .illegalCharacter) ∨
      ∃ rule rest, rule.Admits token.text.toList ∧
        Classified rule token.text.toList rest token.kind token.value := by
  rcases mem_tokens_tokenize_iff.1 h with h | rfl
  · obtain ⟨a, lexeme, b, kind, value, hsplit, hsort, rfl⟩ := exists_of_mem_tokensAfter h
    have hparts := wellFormed_of_lexemes_eq hsplit
    dsimp only
    rw [String.toList_ofList]
    cases hrule : lexeme.rule? with
    | none =>
      obtain ⟨c, rfl⟩ := eq_stray_of_rule?_eq_none hrule
      cases hsort
      exact .inr (.inl ⟨c, rfl, rfl, rfl⟩)
    | some rule =>
      have hstop := stopsBefore_of_lexemes_eq hsplit
      exact .inr (.inr ⟨rule, spell b, admits_text hparts hrule,
        classified_of_sort? hparts hstop hrule hsort⟩)
  · exact .inl rfl

/-- Scanning a source is maximal munch, and nothing else is. -/
theorem munch_iff_reading_tokenize (source : String) (readings : List Reading) :
    Munch 0 source.toList readings ↔
      (tokenize source).value.tokens.toList.map Token.reading = readings := by
  rw [tokens_tokenize]
  constructor
  · intro h
    exact (eq_readingsAfter_of_munch h [] rfl).symm
  · rintro rfl
    exact munch_readingsAfter [] source.toList

end ImagingLexer
