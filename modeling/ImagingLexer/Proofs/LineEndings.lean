import ImagingLexer.Proofs.Scan

/-! # Line endings

A line may end in a carriage return and a line feed. The carriage return is a blank, or the last
character of a comment, and where the line feed would have cut a lexeme short it does so in its
place. Tokens keep their lines and columns; their offsets grow by one for each line before them.
-/

namespace ImagingLexer

open Lexeme

def crlf (text : List Char) : List Char :=
  text.flatMap fun c => if c = '\n' then ['\r', '\n'] else [c]

section Text

@[simp] theorem crlf_nil : crlf [] = [] := rfl

@[simp] theorem crlf_append (a b : List Char) : crlf (a ++ b) = crlf a ++ crlf b := by
  simp [crlf]

@[simp] theorem crlf_lineFeed : crlf ['\n'] = ['\r', '\n'] := rfl

theorem crlf_singleton {c : Char} (h : c ≠ '\n') : crlf [c] = [c] := by
  simp [crlf, h]

theorem crlf_of_not_mem {text : List Char} (h : '\n' ∉ text) : crlf text = text := by
  induction text using List.reverseRecOn with
  | nil => rfl
  | append_singleton text c ih =>
    obtain ⟨htext, hc⟩ := not_or.1 (List.mem_append.not.1 h)
    rw [crlf_append, ih htext, crlf_singleton (fun heq => hc (by simp [heq]))]

theorem head?_crlf (text : List Char) :
    (crlf text).head? = text.head?.map fun c => if c = '\n' then '\r' else c := by
  cases text with
  | nil => rfl
  | cons c text =>
    by_cases h : c = '\n' <;> simp [crlf, h]

theorem byteLength_crlf (text : List Char) :
    byteLength (crlf text) = byteLength text + text.count '\n' := by
  induction text using List.reverseRecOn with
  | nil => rfl
  | append_singleton text c ih =>
    by_cases h : c = '\n'
    · have hreturn : byteLength ['\r', '\n'] = byteLength ['\n'] + 1 := rfl
      subst h
      simp only [crlf_append, crlf_lineFeed, byteLength_append, ih, hreturn, List.count_append,
        List.count_singleton_self]
      omega
    · simp only [crlf_append, crlf_singleton h, byteLength_append, ih, List.count_append,
        List.count_singleton, beq_eq_false_iff_ne.2 h, Bool.false_eq_true, if_false]
      omega

/-- Whatever a carriage return does to the column, the line feed undoes it. -/
theorem after_crlf (text : List Char) : Location.after (crlf text) = Location.after text := by
  induction text using List.reverseRecOn with
  | nil => rfl
  | append_singleton text c ih =>
    by_cases h : c = '\n'
    · subst h
      rw [crlf_append, crlf_lineFeed, Location.after_concat, ← ih, List.append_cons,
        Location.after_concat, Location.after_concat]
      rfl
    · rw [crlf_append, crlf_singleton h, Location.after_concat, Location.after_concat, ih]

end Text

namespace Lexeme

/-- The lexemes of a text with carriage returns. A comment takes one in that follows it. -/
def addReturns : List Lexeme → List Lexeme
  | [] => []
  | comment body :: blank c :: lexemes =>
    comment (body ++ ['\r']) :: blank c :: addReturns lexemes
  | lexeme :: lexemes =>
    if lexeme = blank '\n' then blank '\r' :: lexeme :: addReturns lexemes
    else lexeme :: addReturns lexemes

theorem crlf_text {lexeme : Lexeme} (hparts : lexeme.WellFormed) (h : lexeme ≠ blank '\n') :
    crlf lexeme.text = lexeme.text :=
  crlf_of_not_mem fun hmem => h (hparts.eq_blank hmem)

theorem spell_addReturns {lexemes : List Lexeme} (h : Separated lexemes []) :
    spell (addReturns lexemes) = crlf (spell lexemes) := by
  fun_induction addReturns lexemes with
  | case1 => rfl
  | case2 body c lexemes ih =>
    obtain ⟨hbody, hstop, -, -, hlexemes⟩ := h
    obtain rfl : c = '\n' := hstop c rfl
    have hcomment : crlf (comment body).text = (comment body).text :=
      crlf_text hbody (by simp)
    simp only [spell_cons, ih hlexemes, crlf_append, hcomment]
    simp [text]
  | case3 lexemes hcomment ih =>
    simp only [spell_cons, ih h.2.2, crlf_append]
    rfl
  | case4 lexeme lexemes hcomment hne ih =>
    simp only [spell_cons, ih h.2.2, crlf_append, crlf_text h.1 hne]

theorem stopsBefore_return {lexeme : Lexeme} (h : lexeme.StopsBefore (some '\n'))
    (hcomment : ∀ body, lexeme ≠ comment body) : lexeme.StopsBefore (some '\r') := by
  apply stopsBefore_separator (by decide)
  · rintro content rfl
    cases h
  · exact fun _ _ => by decide
  · exact fun body hbody => absurd hbody (hcomment body)

theorem stopsBefore_addReturns {lexeme : Lexeme} {lexemes : List Lexeme}
    (hlexemes : Separated lexemes []) (hstop : lexeme.StopsBefore (spell lexemes).head?)
    (hcomment : ∀ body c more, lexeme = comment body → lexemes = blank c :: more → False) :
    lexeme.StopsBefore (spell (addReturns lexemes)).head? := by
  rw [spell_addReturns hlexemes, head?_crlf]
  cases hhead : (spell lexemes).head? with
  | none =>
    rw [hhead] at hstop
    exact hstop
  | some c =>
    rw [hhead] at hstop
    rw [Option.map_some]
    split
    next hc =>
      subst hc
      apply stopsBefore_return hstop
      rintro body rfl
      -- The line feed after the comment would be a lexeme by itself.
      cases lexemes with
      | nil => cases hhead
      | cons next lexemes =>
        have hmem : '\n' ∈ next.text := by
          obtain ⟨c, text, htext⟩ := List.exists_cons_of_ne_nil hlexemes.1.text_ne_nil
          rw [spell_cons, htext] at hhead
          obtain rfl : c = '\n' := by simpa using hhead
          simp [htext]
        exact hcomment body '\n' lexemes rfl (by rw [hlexemes.1.eq_blank hmem])
    next => exact hstop

theorem separated_addReturns {lexemes : List Lexeme} (h : Separated lexemes []) :
    Separated (addReturns lexemes) [] := by
  fun_induction addReturns lexemes with
  | case1 => trivial
  | case2 body c lexemes ih =>
    obtain ⟨hbody, hstop, -, -, hlexemes⟩ := h
    obtain rfl : c = '\n' := hstop c rfl
    refine ⟨?_, fun d hd => ?_, rfl, trivial, ih hlexemes⟩
    · intro d hd
      rcases List.mem_append.1 hd with hd | hd
      · exact hbody d hd
      · rw [List.mem_singleton.1 hd]
        decide
    · exact (Option.some.inj hd).symm
  | case3 lexemes hcomment ih => exact ⟨rfl, trivial, rfl, trivial, ih h.2.2⟩
  | case4 lexeme lexemes hcomment hne ih =>
    obtain ⟨hparts, hstop, hlexemes⟩ := h
    rw [List.append_nil] at hstop
    refine ⟨hparts, ?_, ih hlexemes⟩
    rw [List.append_nil]
    exact stopsBefore_addReturns hlexemes hstop hcomment

theorem lexemes_crlf (text : List Char) :
    lexemes (crlf text) = addReturns (ImagingLexer.lexemes text) := by
  have hseparated := separated_lexemes text
  refine lexemes_eq_iff.2 ⟨?_, separated_addReturns hseparated⟩
  rw [spell_addReturns hseparated, spell_lexemes]

end Lexeme

section Tokens

/-- The token when each line before it is a byte longer. -/
def Token.widen (token : Token) : Token :=
  let ⟨start, stop, line, column⟩ := token.span
  { token with span := ⟨start + line, stop + line, line, column⟩ }

theorem Lexeme.token?_crlf (lexeme : Lexeme) (before : List Char) :
    lexeme.token? (crlf before) = (lexeme.token? before).map .widen := by
  simp only [Lexeme.token?, Option.map_map]
  congr 1
  funext sort
  simp only [Function.comp_apply, Token.widen, Span.after, byteLength_crlf, after_crlf,
    Location.line_after, Token.mk.injEq, Span.mk.injEq, and_true, true_and]
  omega

theorem tokensAfter_addReturns {lexemes : List Lexeme} (h : Separated lexemes [])
    (before : List Char) :
    tokensAfter (crlf before) (addReturns lexemes) =
      (tokensAfter before lexemes).map .widen := by
  fun_induction addReturns lexemes generalizing before with
  | case1 => rfl
  | case2 body c lexemes ih =>
    obtain ⟨hbody, hstop, -, -, hlexemes⟩ := h
    obtain rfl : c = '\n' := hstop c rfl
    have hrest := ih hlexemes (before ++ (comment body).text ++ (blank '\n').text)
    have htext : crlf (before ++ (comment body).text ++ (blank '\n').text) =
        crlf before ++ (comment (body ++ ['\r'])).text ++ (blank '\n').text := by
      rw [crlf_append, crlf_append, crlf_text hbody (by simp)]
      simp [Lexeme.text]
    rw [htext] at hrest
    exact hrest
  | case3 lexemes hcomment ih =>
    have hrest := ih h.2.2 (before ++ (blank '\n').text)
    have htext : crlf (before ++ (blank '\n').text) =
        crlf before ++ (blank '\r').text ++ (blank '\n').text := by
      simp [Lexeme.text]
    rw [htext] at hrest
    exact hrest
  | case4 lexeme lexemes hcomment hne ih =>
    have hrest := ih h.2.2 (before ++ lexeme.text)
    rw [crlf_append, crlf_text h.1 hne] at hrest
    rw [tokensAfter_cons, tokensAfter_cons, hrest, Lexeme.token?_crlf, List.map_append,
      Option.toList_map]

theorem endToken_crlf (text : List Char) : endToken (crlf text) = (endToken text).widen := by
  simp only [endToken, Token.widen, Span.after, byteLength_crlf, after_crlf, Location.line_after,
    Token.mk.injEq, Span.mk.injEq, and_true, true_and]
  omega

end Tokens

/-- Carriage returns before line feeds change nothing in the tokens of a source but offsets. -/
theorem tokenize_crlf (source : String) :
    (tokenize (.ofList (crlf source.toList))).value.tokens.toList =
        (tokenize source).value.tokens.toList.map .widen ∧
      (tokenize (.ofList (crlf source.toList))).value.errorCount =
        (tokenize source).value.errorCount := by
  have htokens : (tokenize (.ofList (crlf source.toList))).value.tokens.toList =
      (tokenize source).value.tokens.toList.map .widen := by
    have hlexemes := tokensAfter_addReturns (separated_lexemes source.toList) []
    rw [crlf_nil, ← lexemes_crlf] at hlexemes
    rw [tokens_tokenize, tokens_tokenize, String.toList_ofList, hlexemes, endToken_crlf,
      List.map_append]
    rfl
  refine ⟨htokens, ?_⟩
  rw [errorCount_eq_countP, errorCount_eq_countP, htokens, List.countP_map]
  rfl

end ImagingLexer
