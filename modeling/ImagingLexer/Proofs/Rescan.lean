import ImagingLexer.Proofs.Restart

/-! # Tokens scanned again

What a token is does not depend on where it stands. Its text, scanned as a source of its own, gives
the same token and nothing else, whichever character ended it before; only that a string which was
cut short is then unterminated.
-/

namespace ImagingLexer

/-- The value when the source ends with the token. -/
def Value.atEnd : Value → Value
  | error .illegalStringCharacter => error .unterminatedString
  | value => value

namespace Lexeme

def atEnd : Lexeme → Lexeme
  | cutQuoted content => openQuoted content
  | lexeme => lexeme

@[simp] theorem text_atEnd (lexeme : Lexeme) : lexeme.atEnd.text = lexeme.text := by
  cases lexeme <;> rfl

theorem WellFormed.atEnd {lexeme : Lexeme} (h : lexeme.WellFormed) :
    lexeme.atEnd.WellFormed := by
  cases lexeme <;> exact h

theorem stopsBefore_none (lexeme : Lexeme) : lexeme.atEnd.StopsBefore none := by
  cases lexeme with
  | blank | quoted | stray => trivial
  | cutQuoted | openQuoted => rfl
  | _ => rintro c ⟨⟩

theorem sort?_atEnd {lexeme : Lexeme} {kind : Kind} {value : Value}
    (h : lexeme.sort? = some (kind, value)) : lexeme.atEnd.sort? = some (kind, value.atEnd) := by
  by_cases hcut : ∃ content, lexeme = cutQuoted content
  · obtain ⟨content, rfl⟩ := hcut
    cases h
    rfl
  · have hlexeme : lexeme.atEnd = lexeme := by
      cases lexeme with
      | cutQuoted content => exact absurd ⟨content, rfl⟩ hcut
      | _ => rfl
    have hvalue : value.atEnd = value := by
      unfold Value.atEnd
      split
      · exact absurd (exists_of_sort?_illegalStringCharacter h) hcut
      · rfl
    rw [hlexeme, hvalue, h]

end Lexeme

open Lexeme

variable {source : String} {token : Token}

theorem tokens_tokenize_of_mem (h : token ∈ (tokenize source).value.tokens.toList)
    (hkind : token.kind ≠ .eof) :
    (tokenize token.text).value.tokens.toList =
      [.initial token.kind token.text token.value.atEnd, .final (utf8 token.text).length] := by
  rcases mem_tokens_tokenize_iff.1 h with h | rfl
  · obtain ⟨a, lexeme, b, kind, value, hsplit, hsort, rfl⟩ := exists_of_mem_tokensAfter h
    have hparts := (wellFormed_of_lexemes_eq hsplit).atEnd
    have htext : lexeme.atEnd.text = (String.ofList lexeme.text).toList := by simp
    have hopens := @opens_of_sort? _ _ _ _ "" htext hparts (stopsBefore_none lexeme)
      (sort?_atEnd hsort)
    rw [String.append_empty] at hopens
    exact hopens.tokens_eq
  · exact absurd rfl hkind

/-- A token is found again in its text, and its text determines its kind and, but for how a string
is broken, its value. -/
theorem rescan_tokenize (h : token ∈ (tokenize source).value.tokens.toList)
    (hkind : token.kind ≠ .eof) :
    (tokenize token.text).value.tokens.toList =
        [.initial token.kind token.text token.value.atEnd, .final (utf8 token.text).length] ∧
      ∀ (source' : String) (token' : Token),
        token' ∈ (tokenize source').value.tokens.toList → token'.text = token.text →
          token'.kind = token.kind ∧ token'.value.atEnd = token.value.atEnd := by
  have htokens := tokens_tokenize_of_mem h hkind
  refine ⟨htokens, fun source' token' h' htext => ?_⟩
  have hkind' : token'.kind ≠ .eof := by
    intro heof
    rcases mem_tokens_tokenize_iff.1 h' with h' | rfl
    · exact kind_ne_eof_of_mem h' heof
    · have hlength := congrArg List.length htokens
      rw [← htext, tokens_tokenize] at hlength
      simp [endToken] at hlength
  have htokens' := tokens_tokenize_of_mem h' hkind'
  rw [htext, htokens] at htokens'
  simp only [Token.initial, List.cons.injEq, Token.mk.injEq] at htokens'
  obtain ⟨⟨hkind', -, -, hvalue⟩, -⟩ := htokens'
  exact ⟨hkind'.symm, hvalue.symm⟩

theorem rescan_tokenize_cut_string :
    let source := "x\n1.5.2 \"ab<"
    let number : Token := ⟨.floatLit, "1.5", ⟨2, 5, 1, 0⟩, .float ⟨0x3FC00000⟩⟩
    let string : Token := ⟨.error, "\"ab", ⟨8, 11, 1, 6⟩, .error .illegalStringCharacter⟩
    (number ∈ (tokenize source).value.tokens.toList ∧
      (tokenize "1.5").value.tokens.toList =
        [⟨.floatLit, "1.5", ⟨0, 3, 0, 0⟩, .float ⟨0x3FC00000⟩⟩,
          ⟨.eof, "", ⟨3, 3, 0, 3⟩, .absent⟩]) ∧
    string ∈ (tokenize source).value.tokens.toList ∧
      (tokenize "\"ab").value.tokens.toList =
        [⟨.error, "\"ab", ⟨0, 3, 0, 0⟩, .error .unterminatedString⟩,
          ⟨.eof, "", ⟨3, 3, 0, 3⟩, .absent⟩] := by
  intro source number string
  have hnumber : number ∈ (tokenize source).value.tokens.toList :=
    List.mem_of_getElem? (i := 1) (by decide +kernel)
  have hstring : string ∈ (tokenize source).value.tokens.toList :=
    List.mem_of_getElem? (i := 4) (by decide +kernel)
  exact ⟨⟨hnumber, (rescan_tokenize hnumber (by decide)).1⟩,
    hstring, (rescan_tokenize hstring (by decide)).1⟩

end ImagingLexer
