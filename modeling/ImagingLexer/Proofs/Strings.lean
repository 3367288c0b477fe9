import ImagingLexer.Proofs.Grammar
import ImagingLexer.Proofs.Restart

/-! # Strings

Nothing is escaped in a string: its value is what stands between its quotes. A text in quotes is
therefore a token by itself exactly if each of its characters may stand in a string. The first that
may not ends the lexeme, and the scan goes on with it.
-/

namespace ImagingLexer

open Lexeme

def inQuotes (content : String) : String := "\"" ++ content ++ "\""

section Content

variable {c : Char} {p w : String}

theorem exists_of_not_isContent (h : ¬ ∀ c ∈ w.toList, IsContent c) :
    ∃ p c rest, w = p ++ String.singleton c ++ rest ∧ (∀ d ∈ p.toList, IsContent d) ∧
      ¬ IsContent c := by
  cases hfind : w.toList.find? (fun c => ¬ IsContent c) with
  | none => exact absurd (by simpa using hfind) h
  | some c =>
    obtain ⟨hc, p, rest, hw, hp⟩ := List.find?_eq_some_iff_append.1 hfind
    refine ⟨String.ofList p, c, String.ofList rest, ?_, by simpa using hp, by simpa using hc⟩
    rw [← String.toList_inj, hw]
    simp

theorem opens_quoted (hp : ∀ d ∈ p.toList, IsContent d) (rest : String) :
    (Token.initial .stringLit (inQuotes p) (.string p)).Opens (inQuotes p ++ rest) rest := by
  have htext : (quoted p.toList).text = (inQuotes p).toList := by simp [text, inQuotes]
  apply opens_of_sort? htext (isStringPart_of_isContent hp) trivial
  rw [sort?, meaning, String.ofList_toList]
  rfl

theorem opens_cut (hp : ∀ d ∈ p.toList, IsContent d) (hc : ¬ IsContent c) (hquote : c ≠ '"')
    (rest : String) :
    (Token.initial .error ("\"" ++ p) (.error .illegalStringCharacter)).Opens
      ("\"" ++ p ++ (String.singleton c ++ rest)) (String.singleton c ++ rest) := by
  have htext : (cutQuoted p.toList).text = ("\"" ++ p).toList := by simp [text]
  refine opens_of_sort? htext (isStringPart_of_isContent hp) ⟨c, by simp, ?_, hquote⟩ rfl
  rwa [← isStringPart_iff, Bool.not_eq_true] at hc

theorem opens_unterminated (hp : ∀ d ∈ p.toList, IsContent d) :
    (Token.initial .error ("\"" ++ p) (.error .unterminatedString)).Opens ("\"" ++ p) "" := by
  have htext : (openQuoted p.toList).text = ("\"" ++ p).toList := by simp [text]
  simpa using @opens_of_sort? _ _ _ _ "" htext (isStringPart_of_isContent hp) rfl rfl

/-- The character `c` is the first of a text in quotes that is no content. -/
structure Interrupts (c : Char) (p rest : String) : Prop where
  content : ∀ d ∈ p.toList, IsContent d
  not_content : ¬ IsContent c
  /-- A quote makes a string of the content before it. -/
  closes : c = '"' → (Token.initial .stringLit (inQuotes p) (.string p)).Opens
    (inQuotes (p ++ String.singleton c ++ rest)) (rest ++ "\"")
  /-- Any other character is scanned again. -/
  cuts : c ≠ '"' → (Token.initial .error ("\"" ++ p) (.error .illegalStringCharacter)).Opens
    (inQuotes (p ++ String.singleton c ++ rest)) (String.singleton c ++ rest ++ "\"")
  resumes : c ≠ '"' →
    ∀ next ∈ (tokenize (inQuotes (p ++ String.singleton c ++ rest))).value.tokens.toList.tail,
      (utf8 ("\"" ++ p)).length ≤ next.span.start

theorem exists_interrupts (h : ¬ ∀ c ∈ w.toList, IsContent c) :
    ∃ p c rest, w = p ++ String.singleton c ++ rest ∧ Interrupts c p rest := by
  obtain ⟨p, c, rest, rfl, hp, hc⟩ := exists_of_not_isContent h
  have hcuts : c ≠ '"' →
      (Token.initial .error ("\"" ++ p) (.error .illegalStringCharacter)).Opens
        (inQuotes (p ++ String.singleton c ++ rest)) (String.singleton c ++ rest ++ "\"") := by
    intro hquote
    simpa only [inQuotes, String.append_assoc] using opens_cut hp hc hquote (rest ++ "\"")
  refine ⟨p, c, rest, rfl, hp, hc, ?_, hcuts, fun hquote => (hcuts hquote).stop_le⟩
  rintro rfl
  simpa [inQuotes, String.append_assoc] using opens_quoted hp (rest ++ "\"")

theorem tokens_inQuotes_iff :
    (tokenize (inQuotes w)).value.tokens.toList =
        [.initial .stringLit (inQuotes w) (.string w), .final (utf8 (inQuotes w)).length] ↔
      ∀ c ∈ w.toList, IsContent c := by
  constructor
  · intro htokens
    by_contra hcontent
    obtain ⟨p, c, rest, hw, hinterrupts⟩ := exists_interrupts hcontent
    rcases eq_or_ne c '"' with hquote | hquote
    · have hopens := hinterrupts.closes hquote
      rw [← hw, Token.Opens, htokens, List.cons.injEq] at hopens
      have hvalue : w = p := by simpa [Token.initial] using congrArg Token.value hopens.1
      have hlength := congrArg String.length hw
      rw [hvalue, String.length_append, String.length_append, String.length_singleton] at hlength
      omega
    · have hopens := hinterrupts.cuts hquote
      rw [← hw, Token.Opens, htokens, List.cons.injEq] at hopens
      cases congrArg Token.kind hopens.1
  · intro hcontent
    have hopens := opens_quoted hcontent ""
    rw [String.append_empty] at hopens
    exact hopens.tokens_eq

end Content

/-- A text in quotes is a single string, with the text as its value, exactly if it is content. The
first character that is none makes a shorter string of it or breaks it, and without the second
quote content is unterminated. -/
theorem tokenize_inQuotes (w : String) :
    ((tokenize (inQuotes w)).value.tokens.toList =
        [.initial .stringLit (inQuotes w) (.string w), .final (utf8 (inQuotes w)).length] ↔
      ∀ c ∈ w.toList, IsContent c) ∧
    ((¬ ∀ c ∈ w.toList, IsContent c) →
      ∃ p c rest, w = p ++ String.singleton c ++ rest ∧ Interrupts c p rest) ∧
    ((∀ c ∈ w.toList, IsContent c) →
      (tokenize ("\"" ++ w)).value.tokens.toList =
        [.initial .error ("\"" ++ w) (.error .unterminatedString),
          .final (utf8 ("\"" ++ w)).length]) := by
  refine ⟨tokens_inQuotes_iff, exists_interrupts, ?_⟩
  intro hcontent
  exact (opens_unterminated hcontent).tokens_eq

theorem tokenize_inQuotes_lineFeed :
    (¬ ∀ c ∈ "a $\nb".toList, IsContent c) ∧
      (∃ p c rest, "a $\nb" = p ++ String.singleton c ++ rest ∧ Interrupts c p rest) ∧
    (∀ c ∈ "a $".toList, IsContent c) ∧
      (tokenize "\"a $").value.tokens.toList =
        [⟨.error, "\"a $", ⟨0, 4, 0, 0⟩, .error .unterminatedString⟩,
          ⟨.eof, "", ⟨4, 4, 0, 4⟩, .absent⟩] := by
  have hbroken : ¬ ∀ c ∈ "a $\nb".toList, IsContent c :=
    fun hcontent => absurd (hcontent '\n' (by decide)) (by decide)
  have hcontent : ∀ c ∈ "a $".toList, IsContent c := by simp [IsContent]
  exact ⟨hbroken, (tokenize_inQuotes "a $\nb").2.1 hbroken, hcontent,
    (tokenize_inQuotes "a $").2.2 hcontent⟩

end ImagingLexer
