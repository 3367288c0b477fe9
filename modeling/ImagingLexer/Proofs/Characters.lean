import ImagingLexer.Proofs.Coherence
import ImagingLexer.Proofs.Tiling

/-! # Characters of several bytes

Offsets count bytes, but no character is ever taken apart: whatever is cut out of a source begins
and ends between two characters. Every lexeme but a comment consists of ASCII characters or is a
stray character by itself, so that a character of several bytes that no comment hides is a broken
token of its own.
-/

namespace ImagingLexer

open Lexeme

/-- The bytes from `start` up to `stop` are whole characters of the source, and spell the text. -/
structure Cuts (source : String) (start stop : Nat) (text : String) : Prop where
  le : start ≤ stop
  isValid_start : (String.Pos.Raw.mk start).IsValid source
  isValid_stop : (String.Pos.Raw.mk stop).IsValid source
  slice_eq : slice (utf8 source) start stop = utf8 text

def tokensOver (source : String) (start stop : Nat) : List Token :=
  (tokenize source).value.tokens.toList.filter fun token =>
    token.span.start < stop ∧ start < token.span.stop

/-- The character `c` after `before` stands in a comment: there is a `#` before it on its line, and
no token has a byte from there to the end of the character. -/
def Commented (source before : String) (c : Char) : Prop :=
  ∃ head body, before = head ++ "#" ++ body ∧ '\n' ∉ body.toList ∧
    tokensOver source (utf8 head).length ((utf8 before).length + c.utf8Size) = []

/-- The character `c` after `before` is the whole text of a token, and in no other one. -/
def Solitary (source before : String) (c : Char) : Prop :=
  ∃ token, tokensOver source (utf8 before).length ((utf8 before).length + c.utf8Size) = [token] ∧
    token.kind = .error ∧ token.value = .error .illegalCharacter ∧
    token.text = String.singleton c ∧ token.span.start = (utf8 before).length ∧
    token.span.stop = (utf8 before).length + c.utf8Size

section Cuts

theorem cuts_of_append {source : String} {a text b : List Char}
    (h : source.toList = a ++ text ++ b) :
    Cuts source (byteLength a) (byteLength a + byteLength text) (String.ofList text) where
  le := Nat.le_add_right _ _
  isValid_start := isValid_of_append (h.trans (List.append_assoc _ _ _))
  isValid_stop := by
    rw [← byteLength_append]
    exact isValid_of_append h
  slice_eq := by rw [utf8_eq_bytes, h, slice_bytes, utf8_ofList]

theorem cuts_of_mem_tokenize {source : String} {token : Token}
    (h : token ∈ (tokenize source).value.tokens.toList) :
    Cuts source token.span.start token.span.stop token.text ∧
      ∀ content, token.value = .string content →
        Cuts source (token.span.start + 1) (token.span.stop - 1) content := by
  have hstring := (decoded_of_mem_tokenize h).string_text
  rcases mem_tokens_tokenize_iff.1 h with h | rfl
  · obtain ⟨a, lexeme, b, kind, value, hsplit, hsort, rfl⟩ := exists_of_mem_tokensAfter h
    have hsource := eq_spell_of_lexemes_eq hsplit
    refine ⟨cuts_of_append hsource, fun content hvalue => ?_⟩
    have htext : lexeme.text = '"' :: content.toList ++ ['"'] := by
      simpa [← String.toList_inj] using hstring content hvalue
    have hcontent : source.toList = (spell a ++ ['"']) ++ content.toList ++ '"' :: spell b := by
      simp [hsource, htext]
    have hcuts := cuts_of_append hcontent
    have hopen : byteLength (spell a ++ ['"']) = byteLength (spell a) + 1 := byteLength_append _ _
    have hclose : byteLength (spell a) + byteLength lexeme.text - 1 =
        byteLength (spell a) + 1 + byteLength content.toList := by
      have hquote : '"'.utf8Size = 1 := rfl
      simp only [htext, List.cons_append, byteLength_cons, byteLength_append, byteLength_nil,
        hquote]
      omega
    rwa [hopen, ← hclose, String.ofList_toList] at hcuts
  · refine ⟨?_, nofun⟩
    have hend : source.toList = source.toList ++ [] ++ [] := by simp
    exact cuts_of_append hend

end Cuts

namespace Lexeme

variable {lexeme : Lexeme} {c : Char}

theorem toNat_lt_of_isAlpha (h : c.isAlpha = true) : c.toNat < 128 := by
  have hletters : (decide ('A'.val ≤ c.val ∧ c.val ≤ 'Z'.val) ||
      (decide ('a'.val ≤ c.val) && decide (c.val ≤ 'z'.val))) = true := h
  simp only [Bool.or_eq_true, Bool.and_eq_true, decide_eq_true_eq,
    UInt32.le_iff_toNat_le] at hletters
  change (65 ≤ c.toNat ∧ c.toNat ≤ 90) ∨ (97 ≤ c.toNat ∧ c.toNat ≤ 122) at hletters
  omega

theorem toNat_lt_of_isStringPart (h : isStringPart c = true) : c.toNat < 128 := by
  simp only [isStringPart, isNamePart, isNameStart, Bool.or_eq_true, decide_eq_true_eq] at h
  rcases h with (((halpha | rfl) | rfl) | hdigit) | rfl
  · exact toNat_lt_of_isAlpha halpha
  · decide
  · decide
  · obtain ⟨-, hle⟩ := Char.isDigit_iff_toNat.1 hdigit
    exact Nat.lt_of_le_of_lt hle (by decide)
  · decide

theorem toNat_lt_of_isNamePart (h : isNamePart c = true) : c.toNat < 128 :=
  toNat_lt_of_isStringPart (isStringPart_of_isNamePart h)

theorem toNat_lt_of_isDigit (h : c.isDigit = true) : c.toNat < 128 :=
  toNat_lt_of_isNamePart (by simp [isNamePart, h])

theorem WellFormed.toNat_lt (h : lexeme.WellFormed) (hcomment : ∀ body, lexeme ≠ comment body)
    (hstray : ∀ c, lexeme ≠ stray c) : ∀ c ∈ lexeme.text, c.toNat < 128 := by
  have hstring : ∀ {content : List Char}, (∀ c ∈ content, isStringPart c = true) →
      ∀ c ∈ '"' :: content, c.toNat < 128 := fun hcontent =>
    List.forall_mem_cons.2 ⟨by decide, fun c hc => toNat_lt_of_isStringPart (hcontent c hc)⟩
  have hdigits : ∀ {digits : List Char}, (∀ c ∈ digits, c.isDigit = true) →
      ∀ c ∈ digits, c.toNat < 128 := fun hdigits c hc => toNat_lt_of_isDigit (hdigits c hc)
  cases lexeme with
  | blank c =>
    rcases isBlank_iff.1 h with rfl | rfl | rfl | rfl <;>
      exact List.forall_mem_singleton.2 (by decide)
  | comment body => exact absurd rfl (hcomment body)
  | operator op =>
    have hall : op.chars.all (fun c => c.toNat < 128) = true := by cases op <;> rfl
    exact fun c hc => by simpa using List.all_eq_true.1 hall c hc
  | integer digits => exact hdigits (IsWhole.isDigit h)
  | decimal whole fraction =>
    obtain ⟨hwhole, -, hfraction⟩ := h
    exact List.forall_mem_append.2
      ⟨hdigits hwhole.isDigit, List.forall_mem_cons.2 ⟨by decide, hdigits hfraction⟩⟩
  | openDecimal whole =>
    exact List.forall_mem_append.2
      ⟨hdigits (IsWhole.isDigit h), List.forall_mem_singleton.2 (by decide)⟩
  | word letters =>
    obtain ⟨c, rest, rfl, hc, hrest⟩ := h
    exact List.forall_mem_cons.2 ⟨toNat_lt_of_isNamePart (isNamePart_of_isNameStart hc),
      fun d hd => toNat_lt_of_isNamePart (hrest d hd)⟩
  | quoted content =>
    exact List.forall_mem_append.2 ⟨hstring h, List.forall_mem_singleton.2 (by decide)⟩
  | cutQuoted content => exact hstring h
  | openQuoted content => exact hstring h
  | stray c => exact absurd rfl (hstray c)

theorem WellFormed.comment_or_stray (h : lexeme.WellFormed) (hmem : c ∈ lexeme.text)
    (hc : 128 ≤ c.toNat) : (∃ body, lexeme = comment body) ∨ ∃ d, lexeme = stray d := by
  by_contra hother
  rw [not_or, not_exists, not_exists] at hother
  exact Nat.not_lt_of_le hc (h.toNat_lt hother.1 hother.2 c hmem)

end Lexeme

section Over

variable {source : String}

theorem toNat_lt_of_mem_tokenize {token : Token}
    (h : token ∈ (tokenize source).value.tokens.toList)
    (hvalue : token.value ≠ .error .illegalCharacter) : ∀ c ∈ token.text.toList, c.toNat < 128 := by
  rcases mem_tokens_tokenize_iff.1 h with h | rfl
  · obtain ⟨a, lexeme, b, kind, value, hsplit, hsort, rfl⟩ := exists_of_mem_tokensAfter h
    rw [String.toList_ofList]
    apply (wellFormed_of_lexemes_eq hsplit).toNat_lt
    · rintro body rfl
      cases hsort
    · rintro c rfl
      cases hsort
      exact hvalue rfl
  · simp [endToken]

theorem tokensOver_eq {a b : List Lexeme} {lexeme : Lexeme} {start stop : Nat}
    (hsplit : lexemes source.toList = a ++ lexeme :: b) (hstart : byteLength (spell a) ≤ start)
    (hlt : start < stop) (hstop : stop ≤ byteLength (spell a) + byteLength lexeme.text) :
    tokensOver source start stop = (lexeme.token? (spell a)).toList := by
  have htokens : (tokenize source).value.tokens.toList =
      tokensAfter [] a ++ ((lexeme.token? (spell a)).toList ++
        (tokensAfter (spell a ++ lexeme.text) b ++ [endToken source.toList])) := by
    simp [tokens_tokenize, hsplit, tokensAfter_append]
  have hlength := congrArg byteLength (eq_spell_of_lexemes_eq hsplit)
  rw [byteLength_append, byteLength_append] at hlength
  have hbefore : ∀ token ∈ tokensAfter [] a,
      ¬ (token.span.start < stop ∧ start < token.span.stop) := by
    intro token hmem
    have hbounds := bounds_of_mem_tokensAfter hmem
    rw [byteLength_nil] at hbounds
    omega
  have hown : ∀ token ∈ (lexeme.token? (spell a)).toList,
      token.span.start < stop ∧ start < token.span.stop := by
    intro token hmem
    obtain ⟨kind, value, -, rfl⟩ := token?_eq_some_iff.1 (Option.mem_toList.1 hmem)
    simp only [Span.after]
    omega
  have hafter : ∀ token ∈ tokensAfter (spell a ++ lexeme.text) b ++ [endToken source.toList],
      ¬ (token.span.start < stop ∧ start < token.span.stop) := by
    intro token hmem
    rcases List.mem_append.1 hmem with hmem | hmem
    · have hbounds := bounds_of_mem_tokensAfter hmem
      rw [byteLength_append] at hbounds
      omega
    · obtain rfl := List.mem_singleton.1 hmem
      simp only [endToken, Span.after]
      omega
  rw [tokensOver, htokens, List.filter_append, List.filter_append,
    List.filter_eq_nil_iff.2 (by simpa using hbefore), List.filter_eq_self.2 (by simpa using hown),
    List.filter_eq_nil_iff.2 (by simpa using hafter), List.nil_append, List.append_nil]

theorem commented_or_solitary {before rest : String} {c : Char}
    (h : source = before ++ String.singleton c ++ rest) (hc : 128 ≤ c.toNat) :
    Commented source before c ∨ Solitary source before c := by
  have htext : spell (lexemes source.toList) = before.toList ++ c :: rest.toList := by
    simp [h]
  obtain ⟨a, lexeme, b, u, v, hsplit, hlexeme, hbefore, -⟩ := exists_split_of_spell_eq htext
  have hparts := wellFormed_of_lexemes_eq hsplit
  have hpos := c.utf8Size_pos
  have hlength := congrArg byteLength hlexeme
  rw [byteLength_append, byteLength_cons] at hlength
  rw [Commented, Solitary, length_utf8, hbefore, byteLength_append]
  rcases hparts.comment_or_stray (by simp [hlexeme]) hc with ⟨body, rfl⟩ | ⟨d, rfl⟩
  · refine .inl ?_
    cases u with
    | nil =>
      obtain ⟨rfl, -⟩ := List.cons.inj hlexeme
      exact absurd hc (by decide)
    | cons d u =>
      obtain ⟨rfl, rfl⟩ := List.cons.inj hlexeme
      refine ⟨String.ofList (spell a), String.ofList u, ?_, ?_, ?_⟩
      · rw [← String.toList_inj, hbefore]
        simp
      · rw [String.toList_ofList]
        exact fun hlineFeed => hparts '\n' (by simp [hlineFeed]) rfl
      · rw [length_utf8, String.toList_ofList]
        exact tokensOver_eq hsplit (Nat.le_refl _) (by omega) (by omega)
  · refine .inr ?_
    obtain ⟨rfl, rfl, rfl⟩ : u = [] ∧ d = c ∧ v = [] := by
      cases u with
      | nil => simpa [text] using hlexeme
      | cons e u => simp [text] at hlexeme
    rw [tokensOver_eq hsplit (by simp) (by simpa using hpos) (by simp [text])]
    exact ⟨_, rfl, rfl, rfl, String.singleton_eq_ofList.symm, rfl, rfl⟩

theorem Commented.not_solitary {before : String} {c : Char} (h : Commented source before c) :
    ¬ Solitary source before c := by
  obtain ⟨head, body, rfl, -, hnone⟩ := h
  rintro ⟨token, hover, -⟩
  have hmem : token ∈ tokensOver source _ _ := hover ▸ List.mem_singleton_self token
  simp only [tokensOver, List.mem_filter, decide_eq_true_eq] at hmem
  obtain ⟨htoken, hstart, hstop⟩ := hmem
  have hle : (utf8 head).length ≤ (utf8 (head ++ "#" ++ body)).length := by
    simp only [length_utf8, String.toList_append, byteLength_append]
    omega
  exact List.filter_eq_nil_iff.1 hnone token htoken
    (decide_eq_true ⟨hstart, Nat.lt_of_le_of_lt hle hstop⟩)

end Over

/-- Whatever is cut out of a source is whole characters, the text of a token is in ASCII unless it
is an illegal character, and every other character is in a comment or is a token by itself. -/
theorem tokenize_whole_characters (source : String) :
    (∀ token ∈ (tokenize source).value.tokens.toList,
      Cuts source token.span.start token.span.stop token.text ∧
        (∀ content, token.value = .string content →
          Cuts source (token.span.start + 1) (token.span.stop - 1) content) ∧
        (token.value ≠ .error .illegalCharacter → ∀ c ∈ token.text.toList, c.toNat < 128)) ∧
    ∀ (before rest : String) (c : Char), source = before ++ String.singleton c ++ rest →
      128 ≤ c.toNat → (Commented source before c ∨ Solitary source before c) ∧
        ¬ (Commented source before c ∧ Solitary source before c) := by
  constructor
  · intro token h
    obtain ⟨htext, hcontent⟩ := cuts_of_mem_tokenize h
    exact ⟨htext, hcontent, toNat_lt_of_mem_tokenize h⟩
  · intro before rest c hsource hc
    exact ⟨commented_or_solitary hsource hc, fun ⟨hcommented, hsolitary⟩ =>
      hcommented.not_solitary hsolitary⟩

theorem tokenize_whole_characters_accent :
    let source := "\"a\"é#→"
    let string : Token := ⟨.stringLit, "\"a\"", ⟨0, 3, 0, 0⟩, .string "a"⟩
    (string ∈ (tokenize source).value.tokens.toList ∧ Cuts source 0 3 "\"a\"" ∧
      Cuts source 1 2 "a" ∧ ∀ c ∈ "\"a\"".toList, c.toNat < 128) ∧
    (Commented source "\"a\"" 'é' ∨ Solitary source "\"a\"" 'é') ∧
      (Commented source "\"a\"é#" '→' ∨ Solitary source "\"a\"é#" '→') := by
  intro source string
  have hstring : string ∈ (tokenize source).value.tokens.toList :=
    List.mem_of_getElem? (i := 0) (by decide +kernel)
  obtain ⟨htokens, hcharacters⟩ := tokenize_whole_characters source
  obtain ⟨htext, hcontent, hascii⟩ := htokens string hstring
  exact ⟨⟨hstring, htext, hcontent "a" rfl, hascii (by decide)⟩,
    (hcharacters "\"a\"" "#→" 'é' rfl (by decide)).1,
    (hcharacters "\"a\"é#" "" '→' rfl (by decide)).1⟩

end ImagingLexer
