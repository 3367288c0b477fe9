import ImagingLexer.Proofs.Bytes
import ImagingLexer.Proofs.Scan

/-! # Continuing a source

All lexemes of a text but the last are closed: they end before another character of the text
and remain whatever is appended to it. Only the last lexeme may be continued, and it never
becomes shorter, so that the tokens that end within the text are those of its closed lexemes.
-/

namespace ImagingLexer

open Lexeme

def closedLexemes (text : List Char) : List Lexeme := (lexemes text).dropLast

/-- The tokens of a source that end before `limit`. -/
def tokensWithin (limit : Nat) (source : String) : List Token :=
  (tokenize source).value.tokens.toList.filter (·.span.stop < limit)

section Lexemes

@[simp] theorem closedLexemes_nil : closedLexemes [] = [] := by
  rw [closedLexemes, lexemes_nil]
  rfl

theorem exists_lexemes_eq_concat {text : List Char} (h : text ≠ []) :
    ∃ last, lexemes text = closedLexemes text ++ [last] := by
  obtain ⟨c, rest, rfl⟩ := List.exists_cons_of_ne_nil h
  have hlexemes : lexemes (c :: rest) ≠ [] := by simp [lexemes_cons]
  exact ⟨_, (List.dropLast_concat_getLast hlexemes).symm⟩

theorem prefix_text_first_append {lexeme : Lexeme} {c : Char} {text : List Char}
    (hparts : lexeme.WellFormed) (hstop : lexeme.StopsBefore none)
    (htext : lexeme.text = c :: text) (rest : List Char) :
    lexeme.text <+: (first c (text ++ rest)).1.text := by
  obtain ⟨hfound, hnext⟩ := first_spec c (text ++ rest)
  have hsplit := text_append_first c (text ++ rest)
  generalize first c (text ++ rest) = found at hfound hnext hsplit ⊢
  obtain ⟨next, after⟩ := found
  rw [← List.cons_append, ← htext] at hsplit
  rcases List.append_eq_append_iff.1 hsplit with ⟨tail, hlexeme, hafter⟩ | ⟨tail, hlonger, -⟩
  · cases tail with
    | nil => exact ⟨[], by simpa using hlexeme⟩
    | cons d tail =>
      -- A shorter lexeme would stop before `d` and be the first of the text by itself.
      have hshort : first c text = (next, d :: tail) := by
        apply first_of_wellFormed hfound
        · rwa [hafter] at hnext
        · rw [← hlexeme, htext]
      have hwhole : first c text = (lexeme, []) :=
        first_of_wellFormed hparts hstop (by rw [List.append_nil, htext])
      rw [hwhole] at hshort
      cases hshort
  · exact ⟨tail, hlonger.symm⟩

/-- What follows the closed lexemes of a text begins with a lexeme that reaches its end. -/
theorem exists_lexemes_append (a x : List Char) :
    ∃ more, lexemes (a ++ x) = closedLexemes a ++ more ∧
      ∀ lexeme ∈ more.head?,
        byteLength a ≤ byteLength (spell (closedLexemes a)) + byteLength lexeme.text := by
  rcases eq_or_ne a [] with rfl | hne
  · exact ⟨lexemes x, by simp, by simp⟩
  obtain ⟨last, hlast⟩ := exists_lexemes_eq_concat hne
  have htext := eq_spell_of_lexemes_eq hlast
  have hseparated := separated_lexemes a
  rw [hlast] at hseparated
  obtain ⟨hclosed, hparts, hstop, -⟩ := separated_append.1 hseparated
  obtain ⟨c, text, hfirst⟩ := List.exists_cons_of_ne_nil hparts.text_ne_nil
  have hmore : Separated (closedLexemes a) (last.text ++ x) := hclosed.congr (by simp [hfirst])
  rw [spell_nil, List.append_nil] at htext
  refine ⟨lexemes (last.text ++ x), ?_, ?_⟩
  · conv_lhs => rw [htext, List.append_assoc]
    exact lexemes_spell_append hmore
  · obtain ⟨tail, htail⟩ := prefix_text_first_append hparts hstop hfirst x
    have hlength := congrArg byteLength htext
    rw [hfirst, List.cons_append, lexemes_cons]
    rintro lexeme ⟨⟩
    rw [← htail]
    rw [byteLength_append] at hlength ⊢
    omega

theorem byteLength_spell_closedLexemes_lt {text : List Char} (h : text ≠ []) :
    byteLength (spell (closedLexemes text)) < byteLength text := by
  obtain ⟨last, hlast⟩ := exists_lexemes_eq_concat h
  have hnonempty := byteLength_eq_zero_iff.not.2 (wellFormed_of_lexemes_eq hlast).text_ne_nil
  have hlength := congrArg byteLength (eq_spell_of_lexemes_eq hlast)
  rw [spell_nil, List.append_nil, byteLength_append] at hlength
  omega

end Lexemes

section Tokens

variable {token : Token}

theorem stop_lt_of_mem_closed {text : List Char}
    (h : token ∈ tokensAfter [] (closedLexemes text)) : token.span.stop < byteLength text := by
  rcases eq_or_ne text [] with rfl | hne
  · simp at h
  · have := bounds_of_mem_tokensAfter h
    have := byteLength_spell_closedLexemes_lt hne
    rw [byteLength_nil] at *
    omega

theorem le_stop_of_mem_tokensAfter {before : List Char} {lexemes : List Lexeme} {limit : Nat}
    (hreach : ∀ lexeme ∈ lexemes.head?, limit ≤ byteLength before + byteLength lexeme.text)
    (h : token ∈ tokensAfter before lexemes) : limit ≤ token.span.stop := by
  cases lexemes with
  | nil => simp at h
  | cons lexeme lexemes =>
    have hlimit := hreach lexeme rfl
    rw [tokensAfter_cons, List.mem_append, Option.mem_toList, token?_eq_some_iff] at h
    rcases h with ⟨kind, value, -, rfl⟩ | h
    · exact hlimit
    · have := bounds_of_mem_tokensAfter h
      rw [byteLength_append] at this
      omega

theorem exists_tokens_tokenize_append (a x : String) :
    ∃ more, (tokenize (a ++ x)).value.tokens.toList =
        tokensAfter [] (closedLexemes a.toList) ++ more ∧
      ∀ token ∈ more, byteLength a.toList ≤ token.span.stop := by
  obtain ⟨more, hlexemes, hreach⟩ := exists_lexemes_append a.toList x.toList
  refine ⟨tokensAfter (spell (closedLexemes a.toList)) more ++ [endToken (a ++ x).toList], ?_, ?_⟩
  · rw [tokens_tokenize, String.toList_append, hlexemes, tokensAfter_append, List.nil_append,
      List.append_assoc]
  · intro token hmem
    rcases List.mem_append.1 hmem with hmem | hmem
    · exact le_stop_of_mem_tokensAfter hreach hmem
    · obtain rfl := List.mem_singleton.1 hmem
      simp only [endToken, Span.after, String.toList_append, byteLength_append]
      omega

theorem tokensWithin_append (a x : String) :
    tokensWithin (utf8 a).length (a ++ x) = tokensAfter [] (closedLexemes a.toList) := by
  obtain ⟨more, htokens, hmore⟩ := exists_tokens_tokenize_append a x
  rw [tokensWithin, length_utf8, htokens, List.filter_append, List.filter_eq_self.2,
    List.filter_eq_nil_iff.2, List.append_nil]
  · intro token hmem
    simpa using hmore token hmem
  · intro token hmem
    simpa using stop_lt_of_mem_closed hmem

end Tokens

/-- Appending to a text leaves the tokens that end within it, and all but the last of its own. -/
theorem tokensWithin_append_stable (a x y : String) :
    tokensWithin (utf8 a).length (a ++ x) <+: (tokenize (a ++ x)).value.tokens.toList ∧
      tokensWithin (utf8 a).length (a ++ x) = tokensWithin (utf8 a).length (a ++ y) ∧
      ∃ opened : Option Token, (tokenize a).value.tokens.toList.filter (·.kind ≠ .eof) =
        tokensWithin (utf8 a).length (a ++ x) ++ opened.toList := by
  rw [tokensWithin_append, tokensWithin_append]
  refine ⟨?_, rfl, ?_⟩
  · obtain ⟨more, htokens, -⟩ := exists_tokens_tokenize_append a x
    exact ⟨more, htokens.symm⟩
  · rw [filter_tokens_tokenize]
    rcases eq_or_ne a.toList [] with hnil | hne
    · exact ⟨none, by simp [hnil]⟩
    · obtain ⟨last, hlast⟩ := exists_lexemes_eq_concat hne
      refine ⟨last.token? (spell (closedLexemes a.toList)), ?_⟩
      rw [hlast, tokensAfter_append, tokensAfter_cons, tokensAfter_nil, List.append_nil,
        List.nil_append]

end ImagingLexer
