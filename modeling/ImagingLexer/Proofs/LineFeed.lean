import ImagingLexer.Proofs.Bytes
import ImagingLexer.Proofs.Scan
import Mathlib.Data.List.ModifyLast

/-! # Line feeds separate

A line feed is a boundary that no lexeme crosses and that no lexeme looks past. What stands
before it and what stands after it are scanned as two sources; only a string that the end of
the source left open becomes a string that the line feed cut short.
-/

namespace ImagingLexer

namespace Lexeme

def cut : Lexeme → Lexeme
  | openQuoted content => cutQuoted content
  | lexeme => lexeme

@[simp] theorem text_cut (lexeme : Lexeme) : lexeme.cut.text = lexeme.text := by
  cases lexeme <;> rfl

@[simp] theorem isBroken_cut (lexeme : Lexeme) : lexeme.cut.isBroken = lexeme.isBroken := by
  cases lexeme <;> rfl

@[simp] theorem spell_map_cut (lexemes : List Lexeme) :
    spell (lexemes.map cut) = spell lexemes := by
  induction lexemes with
  | nil => rfl
  | cons lexeme lexemes ih => simp [ih]

theorem WellFormed.cut {lexeme : Lexeme} (h : lexeme.WellFormed) : lexeme.cut.WellFormed := by
  cases lexeme <;> exact h

theorem cut_of_stopsBefore {lexeme : Lexeme} {c : Char} (h : lexeme.StopsBefore (some c)) :
    lexeme.cut = lexeme := by
  cases lexeme with
  | openQuoted content => cases h
  | _ => rfl

theorem stopsBefore_lineFeed (lexeme : Lexeme) : lexeme.cut.StopsBefore (some '\n') := by
  apply stopsBefore_separator (by decide)
  · intro content
    cases lexeme <;> simp [Lexeme.cut]
  · exact fun _ _ => by decide
  · exact fun _ _ => rfl

theorem separated_map_cut {lexemes : List Lexeme} (h : Separated lexemes []) (rest : List Char) :
    Separated (lexemes.map cut) ('\n' :: rest) := by
  induction lexemes with
  | nil => trivial
  | cons lexeme lexemes ih =>
    obtain ⟨hparts, hstop, hlexemes⟩ := h
    refine ⟨hparts.cut, ?_, ih hlexemes⟩
    rw [spell_map_cut]
    rw [List.append_nil] at hstop
    cases htext : spell lexemes with
    | nil => exact stopsBefore_lineFeed lexeme
    | cons c text =>
      rw [htext] at hstop
      rwa [cut_of_stopsBefore hstop]

end Lexeme

open Lexeme

theorem lexemes_lineFeed (a b : List Char) :
    lexemes (a ++ '\n' :: b) = (lexemes a).map cut ++ blank '\n' :: lexemes b := by
  rw [lexemes_eq_iff]
  constructor
  · simp [Lexeme.text]
  · refine separated_append.2 ⟨?_, rfl, trivial, separated_lexemes b⟩
    rw [List.append_nil, spell_cons, spell_lexemes]
    exact separated_map_cut (separated_lexemes a) b

namespace Token

/-- A string that was left open is cut short by a line feed. -/
def cut (token : Token) : Token :=
  if token.value = .error .unterminatedString then
    { token with value := .error .illegalStringCharacter }
  else token

/-- The token when as many bytes and lines are put before its source. -/
def rebase (bytes lines : Nat) (token : Token) : Token :=
  let ⟨start, stop, line, column⟩ := token.span
  { token with span := ⟨start + bytes, stop + bytes, line + lines, column⟩ }

end Token

section Cut

theorem modifyLast_append_of_forall {α : Type} {f : α → α} {a : List α}
    (h : ∀ x ∈ a, f x = x) (b : List α) : (a ++ b).modifyLast f = a ++ b.modifyLast f := by
  cases b with
  | cons x b => exact List.modifyLast_append_of_right_ne_nil f a _ (List.cons_ne_nil x b)
  | nil =>
    rcases List.eq_nil_or_concat a with rfl | ⟨init, last, rfl⟩
    · rfl
    · rw [List.append_nil, List.concat_eq_append, List.modifyLast_concat, h last (by simp)]
      exact (List.append_nil _).symm

theorem Token.cut_of_token? {lexeme : Lexeme} {before : List Char} {token : Token}
    (h : ∀ content, lexeme ≠ openQuoted content) (htoken : lexeme.token? before = some token) :
    token.cut = token := by
  obtain ⟨kind, value, hsort, rfl⟩ := token?_eq_some_iff.1 htoken
  apply if_neg
  rintro rfl
  obtain ⟨content, hopen⟩ := exists_of_sort?_unterminated hsort
  exact h content hopen

theorem token?_cut (lexeme : Lexeme) (before : List Char) :
    lexeme.cut.token? before = (lexeme.token? before).map Token.cut := by
  by_cases hopen : ∃ content, lexeme = openQuoted content
  · obtain ⟨content, rfl⟩ := hopen
    rfl
  · rw [not_exists] at hopen
    have hcut : lexeme.cut = lexeme := by
      cases lexeme with
      | openQuoted content => exact absurd rfl (hopen content)
      | _ => rfl
    rw [hcut]
    cases htoken : lexeme.token? before with
    | none => rfl
    | some token => rw [Option.map_some, Token.cut_of_token? hopen htoken]

theorem tokensAfter_map_cut {lexemes : List Lexeme} (h : Separated lexemes [])
    (before : List Char) :
    tokensAfter before (lexemes.map cut) = (tokensAfter before lexemes).modifyLast .cut := by
  induction lexemes generalizing before with
  | nil => rfl
  | cons lexeme lexemes ih =>
    obtain ⟨-, hstop, hlexemes⟩ := h
    rw [List.map_cons, tokensAfter_cons, tokensAfter_cons, text_cut, ih hlexemes, token?_cut]
    cases lexemes with
    | nil => cases lexeme.token? before <;> rfl
    | cons next lexemes =>
      have hopen : ∀ content, lexeme ≠ openQuoted content := by
        rintro content rfl
        simp [StopsBefore, hlexemes.1.text_ne_nil] at hstop
      rw [modifyLast_append_of_forall]
      · cases htoken : lexeme.token? before with
        | none => rfl
        | some token => rw [Option.map_some, Token.cut_of_token? hopen htoken]
      · intro token htoken
        exact Token.cut_of_token? hopen (Option.mem_toList.1 htoken)

end Cut

section Rebase

theorem Token.rebase_eq (bytes lines : Nat) :
    Token.rebase bytes lines = Token.shift bytes ⟨lines, 0⟩ := by
  funext token
  rw [Token.shift, Span.shift, Location.shift_lineStart]
  rfl

theorem byteLength_concat_lineFeed (a : List Char) :
    byteLength (a ++ ['\n']) = byteLength a + 1 := by
  rw [byteLength_append]
  rfl

theorem tokensAfter_lineFeed (a : List Char) (lexemes : List Lexeme) :
    tokensAfter (a ++ ['\n']) lexemes =
      (tokensAfter [] lexemes).map (.rebase (byteLength a + 1) (a.count '\n' + 1)) := by
  rw [Token.rebase_eq, ← Location.after_concat_lineFeed, ← byteLength_concat_lineFeed,
    ← tokensAfter_shift, List.append_nil]

theorem endToken_lineFeed (a b : List Char) :
    endToken (a ++ '\n' :: b) =
      (endToken b).rebase (byteLength a + 1) (a.count '\n' + 1) := by
  rw [Token.rebase_eq, ← Location.after_concat_lineFeed, ← byteLength_concat_lineFeed,
    ← endToken_append, List.append_assoc, List.singleton_append]

end Rebase

/-- The parts of a source before and after a line feed are scanned by themselves. -/
theorem tokenize_lineFeed (a b : String) :
    (tokenize (a ++ "\n" ++ b)).value.tokens.toList =
        ((tokenize a).value.tokens.toList.filter (·.kind ≠ .eof)).modifyLast .cut ++
          (tokenize b).value.tokens.toList.map
            (.rebase ((utf8 a).length + 1) (a.toList.count '\n' + 1)) ∧
      (tokenize (a ++ "\n" ++ b)).value.errorCount =
        (tokenize a).value.errorCount + (tokenize b).value.errorCount := by
  have htext : (a ++ "\n" ++ b).toList = a.toList ++ '\n' :: b.toList := by simp
  constructor
  · have hspell : spell ((lexemes a.toList).map cut) = a.toList := by simp
    have hafter := tokensAfter_lineFeed a.toList (lexemes b.toList)
    rw [filter_tokens_tokenize, tokens_tokenize, tokens_tokenize, htext, lexemes_lineFeed,
      tokensAfter_append, tokensAfter_map_cut (separated_lexemes _), endToken_lineFeed,
      List.nil_append, hspell, tokensAfter_cons, length_utf8, List.map_append, ← hafter,
      List.append_assoc]
    rfl
  · have hcut : Lexeme.isBroken ∘ Lexeme.cut = Lexeme.isBroken := funext isBroken_cut
    rw [errorCount_tokenize, errorCount_tokenize, errorCount_tokenize, htext, lexemes_lineFeed,
      List.countP_append, List.countP_map, hcut, List.countP_cons_of_neg (by decide)]

end ImagingLexer
