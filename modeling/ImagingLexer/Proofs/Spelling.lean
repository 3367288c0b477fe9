import ImagingLexer.Proofs.MaximalMunch
import ImagingLexer.Proofs.Restart

/-! # Spellings

The kind of a token can be told from its text. Operators and keywords have the text of their kind,
types and colors are told by the lists of their names, and any other name is an identifier. No
token has such a text under another kind, and every reserved word is a token by itself.
-/

namespace ImagingLexer

open Lexeme

/-- The tables of texts agree with the kind of the token. -/
structure Token.Spelled (token : Token) : Prop where
  fixedText_iff : ∀ kind text, kind.fixedText = some text →
    (token.kind = kind ↔ token.text = text)
  typeName_iff : token.kind = .typeName ↔ token.text ∈ Reserved.typeNames
  colorConst_iff : token.kind = .colorConst ↔ token.text ∈ Reserved.colorConstants
  eof_iff : token.kind = .eof ↔ token.text = ""
  ident_iff : token.kind = .ident ↔
    Rule.name.Admits token.text.toList ∧ Reserved.isReserved token.text = false

/-- The kinds that the words of a rule can have. -/
inductive Spells : Rule → String → Kind → Prop
  | operator (op : Operator) : Spells .operator op.spelling (.operator op)
  | reserved {text : String} {kind : Kind} : Reserved.lookup text = some kind →
      Spells .name text kind
  | ident {text : String} : Reserved.lookup text = none → Spells .name text .ident
  | number {text : String} {kind : Kind} : kind ∈ [.intLit, .floatLit, .error] →
      Spells .number text kind
  | string {text : String} {kind : Kind} : kind ∈ [.stringLit, .error] →
      Spells .string text kind

namespace Reserved

variable {text : String} {kind : Kind}

theorem lookup_eq_keyword_iff {word : Keyword} :
    lookup text = some (.keyword word) ↔ Kind.fixedText (.keyword word) = some text := by
  rw [lookup_eq_some_iff]
  cases word <;> simp [reservedWords, Kind.fixedText, eq_comm]

theorem lookup_eq_typeName_iff : lookup text = some .typeName ↔ text ∈ typeNames := by
  rw [lookup_eq_some_iff]
  simp [reservedWords, typeNames, exists_or]

theorem lookup_eq_colorConst_iff : lookup text = some .colorConst ↔ text ∈ colorConstants := by
  rw [lookup_eq_some_iff]
  simp [reservedWords, colorConstants, exists_or]

theorem isReserved_eq_false_iff : isReserved text = false ↔ lookup text = none := by
  simp [isReserved]

theorem admits_of_lookup (h : lookup text = some kind) : Rule.name.Admits text.toList := by
  -- By `any` and `all`, since a decision for all characters of a word would try every character.
  have hall : ∀ entry ∈ reservedWords, entry.1.toList.head?.any (StartsName ·) = true ∧
      entry.1.toList.all (ContinuesName ·) = true := by decide
  obtain ⟨value, hmem⟩ := lookup_eq_some_iff.1 h
  obtain ⟨hhead, hparts⟩ := hall _ hmem
  dsimp only at hhead hparts
  cases htext : text.toList with
  | nil => simp [htext] at hhead
  | cons c letters =>
    rw [htext] at hhead hparts
    rw [List.all_cons, Bool.and_eq_true, List.all_eq_true] at hparts
    exact .name (by simpa using hhead) fun d hd => by simpa using hparts.2 d hd

end Reserved

section Spells

variable {rule : Rule} {word rest : List Char} {text : String} {kind : Kind} {value : Value}

theorem Classified.spells (h : Classified rule word rest kind value) :
    Spells rule (String.ofList word) kind := by
  cases h with
  | @operator text op _ hmem =>
    rw [String.ofList_toList, Rule.mem_operators_iff.1 hmem]
    exact .operator op
  | integer | integerOutOfRange | missingFractionDigits | decimal | floatOutOfRange =>
    exact .number (by simp)
  | quoted | unterminated | cut => exact .string (by simp)
  | reserved hmem =>
    rw [String.ofList_toList]
    exact .reserved (Reserved.lookup_eq_some_iff.2 ⟨_, hmem⟩)
  | ident hfree => exact .ident (Reserved.lookup_eq_none_iff.2 (by rwa [String.toList_ofList]))

theorem Spells.eq_spelling {op : Operator} (h : Spells rule text (.operator op)) :
    text = op.spelling := by
  cases h with
  | operator => rfl
  | reserved hlookup => cases Reserved.isReserved_of_lookup hlookup
  | number hkind | string hkind => simp at hkind

theorem Spells.lookup_eq (h : Spells rule text kind) (hkind : kind.isReserved = true) :
    Reserved.lookup text = some kind := by
  cases h with
  | reserved hlookup => exact hlookup
  | operator | ident => cases hkind
  | number hmem | string hmem =>
    simp only [List.mem_cons, List.not_mem_nil, or_false] at hmem
    rcases hmem with rfl | rfl | rfl <;> cases hkind

theorem Spells.of_ident (h : Spells rule text .ident) :
    rule = .name ∧ Reserved.lookup text = none := by
  cases h with
  | ident hlookup => exact ⟨rfl, hlookup⟩
  | reserved hlookup => cases Reserved.isReserved_of_lookup hlookup
  | number hkind | string hkind => simp at hkind

theorem Spells.exists_operator (h : Spells .operator text kind) :
    ∃ op : Operator, text = op.spelling ∧ kind = .operator op := by
  cases h with
  | operator op => exact ⟨op, rfl, rfl⟩

theorem Spells.kind_eq (h : Spells .name text kind) :
    kind = (Reserved.lookup text).getD .ident := by
  cases h with
  | reserved hlookup | ident hlookup => rw [hlookup]; rfl

end Spells

section Tokens

variable {source : String} {token : Token} {rule : Rule} {kind : Kind}

/-- A token whose text is a word of a rule comes from that rule. -/
theorem spells_of_admits (h : token ∈ (tokenize source).value.tokens.toList)
    (hadmits : rule.Admits token.text.toList) : Spells rule token.text token.kind := by
  rcases mem_tokens_tokenize_iff.1 h with h | rfl
  · obtain ⟨a, lexeme, b, kind, value, hsplit, hsort, rfl⟩ := exists_of_mem_tokensAfter h
    have hparts := wellFormed_of_lexemes_eq hsplit
    rw [String.toList_ofList] at hadmits
    have hrule := (ofFirst?_head_text hparts).symm.trans hadmits.ofFirst?_head
    exact (classified_of_sort? hparts (stopsBefore_of_lexemes_eq hsplit) hrule hsort).spells
  · exact absurd rfl hadmits.ne_nil

theorem exists_spells (h : token ∈ (tokenize source).value.tokens.toList)
    (heof : token.kind ≠ .eof) (herror : token.kind ≠ .error) :
    ∃ rule : Rule, rule.Admits token.text.toList ∧ Spells rule token.text token.kind := by
  rcases classified_of_mem_tokenize h with rfl | ⟨c, -, hkind, -⟩ | ⟨rule, -, hadmits, -⟩
  · exact absurd rfl heof
  · exact absurd hkind herror
  · exact ⟨rule, hadmits, spells_of_admits h hadmits⟩

theorem kind_eq_operator_iff (h : token ∈ (tokenize source).value.tokens.toList) {op : Operator} :
    token.kind = .operator op ↔ token.text = op.spelling := by
  constructor
  · intro hkind
    obtain ⟨rule, -, hspells⟩ := exists_spells h (by simp [hkind]) (by simp [hkind])
    rw [hkind] at hspells
    exact hspells.eq_spelling
  · intro htext
    have hadmits : Rule.operator.Admits token.text.toList :=
      Rule.admits_operator_iff.2 ⟨op, by simp [htext, Operator.spelling]⟩
    obtain ⟨op', htext', hkind⟩ := (spells_of_admits h hadmits).exists_operator
    rw [htext, Operator.spelling, Operator.spelling, String.ofList_inj] at htext'
    rw [hkind, Operator.chars_injective htext']

theorem kind_eq_iff_lookup (h : token ∈ (tokenize source).value.tokens.toList)
    (hkind : kind.isReserved = true) :
    token.kind = kind ↔ Reserved.lookup token.text = some kind := by
  constructor
  · rintro rfl
    have heof : token.kind ≠ .eof := fun heq => by rw [heq] at hkind; cases hkind
    have herror : token.kind ≠ .error := fun heq => by rw [heq] at hkind; cases hkind
    obtain ⟨rule, -, hspells⟩ := exists_spells h heof herror
    exact hspells.lookup_eq hkind
  · intro hlookup
    rw [(spells_of_admits h (Reserved.admits_of_lookup hlookup)).kind_eq, hlookup]
    rfl

theorem kind_eq_ident_iff (h : token ∈ (tokenize source).value.tokens.toList) :
    token.kind = .ident ↔
      Rule.name.Admits token.text.toList ∧ Reserved.isReserved token.text = false := by
  rw [Reserved.isReserved_eq_false_iff]
  constructor
  · intro hkind
    obtain ⟨rule, hadmits, hspells⟩ := exists_spells h (by simp [hkind]) (by simp [hkind])
    rw [hkind] at hspells
    obtain ⟨rfl, hlookup⟩ := hspells.of_ident
    exact ⟨hadmits, hlookup⟩
  · rintro ⟨hadmits, hlookup⟩
    rw [(spells_of_admits h hadmits).kind_eq, hlookup]
    rfl

theorem kind_eq_eof_iff (h : token ∈ (tokenize source).value.tokens.toList) :
    token.kind = .eof ↔ token.text = "" := by
  rcases mem_tokens_tokenize_iff.1 h with h | rfl
  · have hkind := kind_ne_eof_of_mem h
    obtain ⟨a, lexeme, b, kind, value, hsplit, -, rfl⟩ := exists_of_mem_tokensAfter h
    have htext := (wellFormed_of_lexemes_eq hsplit).text_ne_nil
    simp [hkind, htext]
  · simp [endToken]

theorem fixedText_operator (op : Operator) :
    Kind.fixedText (.operator op) = some op.spelling := by
  cases op <;> rfl

theorem spelled_of_mem_tokenize (h : token ∈ (tokenize source).value.tokens.toList) :
    token.Spelled where
  fixedText_iff kind text hfixed := by
    cases kind
    case operator op =>
      rw [fixedText_operator] at hfixed
      cases hfixed
      exact kind_eq_operator_iff h
    case keyword word =>
      rw [kind_eq_iff_lookup h rfl, Reserved.lookup_eq_keyword_iff, hfixed, Option.some.injEq,
        eq_comm]
    all_goals cases hfixed
  typeName_iff := (kind_eq_iff_lookup h rfl).trans Reserved.lookup_eq_typeName_iff
  colorConst_iff := (kind_eq_iff_lookup h rfl).trans Reserved.lookup_eq_colorConst_iff
  eof_iff := kind_eq_eof_iff h
  ident_iff := kind_eq_ident_iff h

end Tokens

section Words

variable {text : String} {kind : Kind}

theorem exists_sort?_of_lookup (h : Reserved.lookup text = some kind) :
    ∃ value, (word text.toList).sort? = some (kind, value) := by
  obtain ⟨value, hmem⟩ := Reserved.lookup_eq_some_iff.1 h
  exact ⟨value, sort?_word_of_mem hmem⟩

theorem tokens_tokenize_of_lookup (h : Reserved.lookup text = some kind) :
    ∃ value, (tokenize text).value.tokens.toList =
      [.initial kind text value, .final (utf8 text).length] := by
  obtain ⟨value, hsort⟩ := exists_sort?_of_lookup h
  have hparts := Rule.admits_name_iff.1 (Reserved.admits_of_lookup h)
  have hstop : (word text.toList).StopsBefore "".toList.head? := by
    rintro c ⟨⟩
  have hopens := opens_of_sort? rfl hparts hstop hsort
  rw [String.append_empty] at hopens
  exact ⟨value, hopens.tokens_eq⟩

end Words

/-- The kind of each token is the one that the tables have for its text, and what is reserved is
scanned as such. -/
theorem spelled_tokenize :
    (∀ (source : String), ∀ token ∈ (tokenize source).value.tokens.toList, token.Spelled) ∧
    ∀ (text : String) (kind : Kind), Reserved.lookup text = some kind →
      Rule.name.Admits text.toList ∧ ∃ value, (tokenize text).value.tokens.toList =
        [.initial kind text value, .final (utf8 text).length] := by
  constructor
  · exact fun source token h => spelled_of_mem_tokenize h
  · exact fun text kind h => ⟨Reserved.admits_of_lookup h, tokens_tokenize_of_lookup h⟩

theorem spelled_tokenize_longer :
    let source := "ints<=RED"
    let name : Token := ⟨.ident, "ints", ⟨0, 4, 0, 0⟩, .absent⟩
    let operator : Token := ⟨.operator .le, "<=", ⟨4, 6, 0, 4⟩, .absent⟩
    (name ∈ (tokenize source).value.tokens.toList ∧ name.Spelled) ∧
      (operator ∈ (tokenize source).value.tokens.toList ∧
        Kind.fixedText (.operator .lt) = some "<" ∧
        (operator.kind = .operator .lt ↔ operator.text = "<")) ∧
      Reserved.lookup "RED" = some .colorConst ∧ Rule.name.Admits "RED".toList ∧
        ∃ value, (tokenize "RED").value.tokens.toList =
          [.initial .colorConst "RED" value, .final (utf8 "RED").length] := by
  intro source name operator
  have hname : name ∈ (tokenize source).value.tokens.toList :=
    List.mem_of_getElem? (i := 0) (by decide +kernel)
  have hoperator : operator ∈ (tokenize source).value.tokens.toList :=
    List.mem_of_getElem? (i := 1) (by decide +kernel)
  have hlookup : Reserved.lookup "RED" = some .colorConst := by decide
  obtain ⟨htokens, hwords⟩ := spelled_tokenize
  exact ⟨⟨hname, htokens source name hname⟩,
    ⟨hoperator, rfl, (htokens source operator hoperator).fixedText_iff _ _ rfl⟩,
    hlookup, hwords "RED" .colorConst hlookup⟩

end ImagingLexer
