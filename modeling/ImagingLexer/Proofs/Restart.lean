import ImagingLexer.Proofs.Bytes
import ImagingLexer.Proofs.Scan

/-! # Restarting a scan

Nothing but its offset and its location is carried past the end of a token. What follows a
token can be scanned as a source of its own, whether the token is broken or not; its tokens
then only have to be moved to where the token ends.
-/

namespace ImagingLexer

open Lexeme

def Span.endLocation (span : Span) : Location := ⟨span.line, span.column + span.len⟩

theorem Span.endLocation_after (before : List Char) {text : List Char} (h : '\n' ∉ text) :
    (Span.after before text).endLocation = .after (before ++ text) := by
  rw [Location.after_append, LineIndex.after_of_not_mem h]
  simp only [Span.endLocation, Span.after, Span.len, Location.shift, if_true, Nat.zero_add,
    Location.mk.injEq, true_and]
  omega

section Opens

def Token.initial (kind : Kind) (text : String) (value : Value) : Token :=
  ⟨kind, text, ⟨0, (utf8 text).length, 0, 0⟩, value⟩

/-- The end of a source that is one line of `n` bytes. -/
def Token.final (n : Nat) : Token := ⟨.eof, "", ⟨n, n, 0, n⟩, .absent⟩

/-- The token is the first of the source. The others are those of `rest`, which is scanned as a
source of its own, moved to where the token ends. -/
def Token.Opens (token : Token) (source rest : String) : Prop :=
  (tokenize source).value.tokens.toList =
    token :: (tokenize rest).value.tokens.toList.map
      (.shift token.span.stop token.span.endLocation)

variable {lexeme : Lexeme} {kind : Kind} {value : Value} {text : String}

theorem opens_of_sort? {rest : String} (htext : lexeme.text = text.toList)
    (hparts : lexeme.WellFormed) (hstop : lexeme.StopsBefore rest.toList.head?)
    (hsort : lexeme.sort? = some (kind, value)) :
    (Token.initial kind text value).Opens (text ++ rest) rest := by
  have hspan : Span.after [] text.toList = ⟨0, (utf8 text).length, 0, 0⟩ := by
    simp [Span.after, length_utf8]
  have hlineFeed := lineFeed_not_mem_of_sort? hparts hsort
  have htokens := tokens_tokenize_text_append hparts hstop hsort
  rw [htext] at hlineFeed
  have hend := Span.endLocation_after [] hlineFeed
  rw [htext, ← String.toList_append, String.ofList_toList, String.ofList_toList, hspan,
    String.ofList_toList, ← length_utf8] at htokens
  rw [hspan] at hend
  rw [Token.Opens, htokens, Token.initial, hend]
  rfl

theorem Token.Opens.stop_le {token : Token} {source rest : String} (h : token.Opens source rest) :
    ∀ next ∈ (tokenize source).value.tokens.toList.tail, token.span.stop ≤ next.span.start := by
  intro next hnext
  rw [h, List.tail_cons, List.mem_map] at hnext
  obtain ⟨moved, -, rfl⟩ := hnext
  exact Nat.le_add_left _ _

theorem Token.Opens.tokens_eq (h : (Token.initial kind text value).Opens text "") :
    (tokenize text).value.tokens.toList =
      [.initial kind text value, .final (utf8 text).length] := by
  rw [h, tokens_tokenize]
  simp [endToken, Span.after, Token.shift, Span.shift, Span.location, Location.shift,
    Span.endLocation, Span.len, Token.initial, Token.final]

end Opens

section Restart

variable {source : String} {first last : List Token} {token : Token}

theorem exists_of_tokens_tokenize_eq
    (h : (tokenize source).value.tokens.toList = first ++ token :: last)
    (hkind : token.kind ≠ .eof) :
    ∃ a lexeme b, lexemes source.toList = a ++ lexeme :: b ∧
      lexeme.token? (spell a) = some token ∧
        last = tokensAfter (spell a ++ lexeme.text) b ++ [endToken source.toList] := by
  rw [tokens_tokenize] at h
  rcases List.eq_nil_or_concat last with rfl | ⟨init, final, rfl⟩
  · obtain ⟨-, hend⟩ := List.append_inj' h rfl
    obtain rfl := List.singleton_inj.1 hend
    exact absurd rfl hkind
  · rw [List.concat_eq_append, ← List.cons_append, ← List.append_assoc] at h
    obtain ⟨htokens, hend⟩ := List.append_inj' h rfl
    obtain ⟨a, lexeme, b, hsplit, htoken, rfl⟩ := exists_of_tokensAfter_eq_append htokens
    exact ⟨a, lexeme, b, hsplit, htoken, by rw [List.concat_eq_append, hend]; rfl⟩

/-- The tokens after a token are the tokens of the rest of the source, moved to its end. -/
theorem tokenize_restart (h : (tokenize source).value.tokens.toList = first ++ token :: last)
    (hkind : token.kind ≠ .eof) :
    ∃ rest : String, utf8 rest = (utf8 source).drop token.span.stop ∧
      last = (tokenize rest).value.tokens.toList.map
        (.shift token.span.stop token.span.endLocation) := by
  obtain ⟨a, lexeme, b, hsplit, htoken, rfl⟩ := exists_of_tokens_tokenize_eq h hkind
  obtain ⟨kind, value, hsort, rfl⟩ := token?_eq_some_iff.1 htoken
  have hlineFeed := lineFeed_not_mem_of_sort? (wellFormed_of_lexemes_eq hsplit) hsort
  have htext := eq_spell_of_lexemes_eq hsplit
  have hlast : lexemes (spell b) = b := by
    rw [List.append_cons] at hsplit
    exact lexemes_spell_of_lexemes_eq hsplit
  have hstop : (Span.after (spell a) lexeme.text).stop = byteLength (spell a ++ lexeme.text) :=
    (byteLength_append _ _).symm
  refine ⟨String.ofList (spell b), ?_, ?_⟩
  · rw [utf8_ofList, utf8_eq_bytes, htext, bytes_append, hstop, ← length_bytes, List.drop_left]
  · rw [Span.endLocation_after _ hlineFeed, hstop,
      tokens_tokenize, String.toList_ofList, hlast, List.map_append, ← tokensAfter_shift, htext,
      endToken_append, List.append_nil]
    rfl

end Restart

theorem tokenize_restart_cut_string :
    (tokenize "x \"b- #\n c").value.tokens.toList =
      [⟨.ident, "x", ⟨0, 1, 0, 0⟩, .absent⟩] ++
        ⟨.error, "\"b", ⟨2, 4, 0, 2⟩, .error .illegalStringCharacter⟩ ::
          [⟨.operator .minus, "-", ⟨4, 5, 0, 4⟩, .absent⟩, ⟨.ident, "c", ⟨9, 10, 1, 1⟩, .absent⟩,
            ⟨.eof, "", ⟨10, 10, 1, 2⟩, .absent⟩] ∧
    ∃ rest : String, utf8 rest = (utf8 "x \"b- #\n c").drop 4 ∧
      ([⟨.operator .minus, "-", ⟨4, 5, 0, 4⟩, .absent⟩, ⟨.ident, "c", ⟨9, 10, 1, 1⟩, .absent⟩,
        ⟨.eof, "", ⟨10, 10, 1, 2⟩, .absent⟩] : List Token) =
          (tokenize rest).value.tokens.toList.map (.shift 4 ⟨0, 4⟩) := by
  refine ⟨?tokens, tokenize_restart ?tokens (by decide)⟩
  decide +kernel

end ImagingLexer
