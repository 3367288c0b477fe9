import ImagingLexer.Proofs.Bytes
import ImagingLexer.Proofs.Scan

/-! # Arranging lexemes

Lexemes can be written one after the other with any padding between them, as long as there is
some. They are found again where they were put, and each has the kind and the value that it
has by itself.
-/

namespace ImagingLexer

open Lexeme

/-- The source is scanned as one token that is not broken. -/
def IsLexeme (source : String) : Prop :=
  ∃ token last, (tokenize source).value.tokens.toList = [token, last] ∧
    token.kind ≠ .error ∧ token.kind ≠ .eof ∧ token.text = source ∧ last.kind = .eof

/-- Blanks, and comments with the line feeds that end them. -/
inductive IsPadding : List Char → Prop
  | nil : IsPadding []
  | blank {c : Char} {text : List Char} : c ∈ [' ', '\t', '\r', '\n'] →
      IsPadding text → IsPadding (c :: text)
  | comment {body text : List Char} : '\n' ∉ body →
      IsPadding text → IsPadding ('#' :: body ++ '\n' :: text)

structure Entry where
  word : String
  /-- What is put after the word. -/
  gap : String
  isLexeme : IsLexeme word
  isPadding : IsPadding gap.toList

/-- A source that consists of entries. Only the last of them may have no gap. -/
structure Arrangement where
  lead : String
  entries : List Entry
  isPadding_lead : IsPadding lead.toList
  apart : ∀ entry ∈ entries.dropLast, entry.gap ≠ ""

namespace Arrangement

def written : List Entry → String
  | [] => ""
  | entry :: entries => entry.word ++ entry.gap ++ written entries

def source (arrangement : Arrangement) : String :=
  arrangement.lead ++ written arrangement.entries

def offset (arrangement : Arrangement) (i : Nat) : Nat :=
  (utf8 (arrangement.lead ++ written (arrangement.entries.take i))).length

end Arrangement

section Padding

variable {text : List Char}

theorem IsPadding.head?_mem (h : IsPadding text) : ∀ c ∈ text.head?, c ∈ separators := by
  cases h with
  | nil => simp
  | @blank c _ hc _ =>
    rintro d ⟨⟩
    exact List.mem_append_left ['#'] hc
  | comment =>
    rintro d ⟨⟩
    decide

theorem IsPadding.exists_lexemes (h : IsPadding text) : ∃ skipped, spell skipped = text ∧
    (∀ lexeme ∈ skipped, lexeme.sort? = none) ∧ ∀ rest, Separated skipped rest := by
  induction h with
  | nil => exact ⟨[], rfl, by simp, fun _ => trivial⟩
  | @blank c text hc _ ih =>
    obtain ⟨skipped, rfl, hskipped, hseparated⟩ := ih
    have hblank : isBlank c = true := by simpa [isBlank, or_assoc] using hc
    refine ⟨.blank c :: skipped, by simp [Lexeme.text], ?_, fun rest => ?_⟩
    · exact List.forall_mem_cons.2 ⟨rfl, hskipped⟩
    · exact ⟨hblank, trivial, hseparated rest⟩
  | @comment body text hbody _ ih =>
    obtain ⟨skipped, rfl, hskipped, hseparated⟩ := ih
    refine ⟨.comment body :: .blank '\n' :: skipped, by simp [Lexeme.text], ?_, fun rest => ?_⟩
    · exact List.forall_mem_cons.2 ⟨rfl, List.forall_mem_cons.2 ⟨rfl, hskipped⟩⟩
    · refine ⟨?_, ?_, rfl, trivial, hseparated rest⟩
      · rintro c hc rfl
        exact hbody hc
      · rintro c ⟨⟩
        rfl

theorem tokensAfter_of_skipped {skipped : List Lexeme}
    (h : ∀ lexeme ∈ skipped, lexeme.sort? = none) (before : List Char) :
    tokensAfter before skipped = [] := by
  induction skipped generalizing before with
  | nil => rfl
  | cons lexeme skipped ih =>
    obtain ⟨hlexeme, hskipped⟩ := List.forall_mem_cons.1 h
    simp [Lexeme.token?, hlexeme, ih hskipped]

theorem tokensAfter_padding (h : IsPadding text) (before rest : List Char) :
    tokensAfter before (lexemes (text ++ rest)) = tokensAfter (before ++ text) (lexemes rest) := by
  obtain ⟨skipped, rfl, hskipped, hseparated⟩ := h.exists_lexemes
  rw [lexemes_spell_append (hseparated rest), tokensAfter_append,
    tokensAfter_of_skipped hskipped, List.nil_append]

end Padding

section Word

variable {word : String} {token : Token}

theorem IsLexeme.exists_lexeme (h : IsLexeme word) :
    ∃ lexeme kind value, lexemes word.toList = [lexeme] ∧ lexeme.meaning = .token kind value := by
  obtain ⟨token, last, htokens, herror, -, htext, -⟩ := h
  rw [tokens_tokenize] at htokens
  have htoken : tokensAfter [] (lexemes word.toList) = [] ++ token :: [] :=
    (List.append_inj' (htokens.trans (List.singleton_append.symm)) rfl).1
  obtain ⟨a, lexeme, b, hsplit, htoken?, -⟩ := exists_of_tokensAfter_eq_append htoken
  obtain ⟨kind, value, hsort, rfl⟩ := token?_eq_some_iff.1 htoken?
  have hparts : ∀ found ∈ a ++ lexeme :: b, found.WellFormed :=
    fun found hmem => wellFormed_of_mem_lexemes (hsplit ▸ hmem)
  -- The token has the whole source for its text, so that no other lexeme has any.
  have hlexeme : lexeme.text = word.toList := by rw [← htext, String.toList_ofList]
  have hlength := congrArg List.length (eq_spell_of_lexemes_eq hsplit)
  simp only [hlexeme, List.length_append] at hlength
  obtain rfl : a = [] := eq_nil_of_spell_eq_nil (fun found hmem => hparts found (by simp [hmem]))
    (List.eq_nil_of_length_eq_zero (by omega))
  obtain rfl : b = [] := eq_nil_of_spell_eq_nil (fun found hmem => hparts found (by simp [hmem]))
    (List.eq_nil_of_length_eq_zero (by omega))
  rcases sort?_eq_some_iff.1 hsort with hmeaning | ⟨fault, -, rfl, -⟩
  · exact ⟨lexeme, kind, value, hsplit, hmeaning⟩
  · exact absurd rfl herror

/-- The token is the one that the word has by itself, put at `offset`. -/
def Token.Restates (token : Token) (word : String) (offset : Nat) : Prop :=
  ∃ alone, (tokenize word).value.tokens[0]? = some alone ∧ token.kind = alone.kind ∧
    token.text = alone.text ∧ token.value = alone.value ∧ token.span.start = offset ∧
    token.span.stop = offset + (utf8 word).length

theorem Token.Restates.kind_ne_error {offset : Nat} (h : token.Restates word offset)
    (hword : IsLexeme word) : token.kind ≠ .error := by
  obtain ⟨alone, halone, hkind, -⟩ := h
  obtain ⟨found, last, htokens, herror, -⟩ := hword
  rw [← Array.getElem?_toList, htokens] at halone
  obtain rfl : found = alone := by simpa using halone
  exact hkind ▸ herror

theorem IsLexeme.tokensAfter_append (h : IsLexeme word) {rest : List Char}
    (hrest : ∀ c ∈ rest.head?, c ∈ separators) (before : List Char) :
    ∃ token, token.Restates word (byteLength before) ∧
      tokensAfter before (lexemes (word.toList ++ rest)) =
        token :: tokensAfter (before ++ word.toList) (lexemes rest) := by
  obtain ⟨lexeme, kind, value, hlexemes, hmeaning⟩ := h.exists_lexeme
  obtain ⟨hspell, hparts, hend, -⟩ := lexemes_eq_iff.1 hlexemes
  have htext : lexeme.text = word.toList := by simpa using hspell
  have hsort : lexeme.sort? = some (kind, value) := sort?_eq_some_iff.2 (.inl hmeaning)
  have hstop : lexeme.StopsBefore rest.head? := by
    cases hnext : rest.head? with
    | none => exact hend
    | some c =>
      apply stopsBefore_separator (hrest c hnext)
      all_goals
        rintro text rfl
        cases hmeaning
  refine ⟨⟨kind, word, .after before word.toList, value⟩, ?_, ?_⟩
  · refine ⟨⟨kind, word, .after [] word.toList, value⟩, ?_, rfl, rfl, rfl, rfl, ?_⟩
    · rw [← Array.getElem?_toList, tokens_tokenize, hlexemes]
      simp [token?, hsort, htext]
    · simp [Span.after, length_utf8]
  · rw [← htext, lexemes_text_append hparts hstop, htext]
    simp [token?, hsort, htext]

end Word

namespace Arrangement

variable {entry : Entry} {entries : List Entry}

theorem toList_written_cons (entry : Entry) (entries : List Entry) :
    (written (entry :: entries)).toList =
      entry.word.toList ++ (entry.gap.toList ++ (written entries).toList) := by
  simp [written]

theorem head?_after_word (h : ∀ found ∈ (entry :: entries).dropLast, found.gap ≠ "") :
    ∀ c ∈ (entry.gap.toList ++ (written entries).toList).head?, c ∈ separators := by
  have hpadding := entry.isPadding.head?_mem
  cases hgap : entry.gap.toList with
  | cons c gap =>
    rw [hgap] at hpadding
    exact hpadding
  | nil =>
    cases entries with
    | nil => simp [written]
    | cons next entries => exact absurd (String.toList_eq_nil_iff.1 hgap) (h entry (by simp))

theorem tokensAfter_written (h : ∀ entry ∈ entries.dropLast, entry.gap ≠ "")
    (before : List Char) :
    (tokensAfter before (lexemes (written entries).toList)).length = entries.length ∧
      ∀ (i : Nat) (entry : Entry), entries[i]? = some entry → ∃ token : Token,
        (tokensAfter before (lexemes (written entries).toList))[i]? = some token ∧
          token.Restates entry.word
            (byteLength (before ++ (written (entries.take i)).toList)) := by
  induction entries generalizing before with
  | nil => simp [written]
  | cons entry entries ih =>
    have htail : ∀ found ∈ entries.dropLast, found.gap ≠ "" := by
      cases entries with
      | nil => simp
      | cons next entries => exact fun found hmem => h found (List.mem_cons_of_mem _ hmem)
    obtain ⟨token, htoken, htokens⟩ :=
      entry.isLexeme.tokensAfter_append (head?_after_word h) before
    obtain ⟨hlength, hentries⟩ := ih htail (before ++ entry.word.toList ++ entry.gap.toList)
    rw [toList_written_cons, htokens, tokensAfter_padding entry.isPadding]
    refine ⟨congrArg (· + 1) hlength, ?_⟩
    rintro (_ | i) found hfound
    · obtain rfl : entry = found := by simpa using hfound
      exact ⟨token, rfl, by simpa [written] using htoken⟩
    · obtain ⟨next, hnext, hrestates⟩ := hentries i found hfound
      refine ⟨next, hnext, ?_⟩
      rw [List.take_succ_cons, toList_written_cons]
      simpa using hrestates

section Source

variable (arrangement : Arrangement)

theorem tokensAfter_source :
    (tokensAfter [] (lexemes arrangement.source.toList)).length = arrangement.entries.length ∧
      ∀ (i : Nat) (entry : Entry), arrangement.entries[i]? = some entry → ∃ token : Token,
        (tokensAfter [] (lexemes arrangement.source.toList))[i]? = some token ∧
          token.Restates entry.word (arrangement.offset i) := by
  have htokens :=
    tokensAfter_padding arrangement.isPadding_lead [] (written arrangement.entries).toList
  rw [← String.toList_append, List.nil_append] at htokens
  obtain ⟨hlength, hentries⟩ :=
    tokensAfter_written arrangement.apart arrangement.lead.toList
  rw [source, htokens]
  refine ⟨hlength, fun i entry hentry => ?_⟩
  obtain ⟨token, htoken, hrestates⟩ := hentries i entry hentry
  exact ⟨token, htoken, by rwa [offset, length_utf8, String.toList_append]⟩

theorem errorCount_source : (tokenize arrangement.source).value.errorCount = 0 := by
  obtain ⟨hlength, hentries⟩ := arrangement.tokensAfter_source
  rw [errorCount_eq_countP, List.countP_eq_zero]
  intro token hmem
  rcases mem_tokens_tokenize_iff.1 hmem with hmem | rfl
  · obtain ⟨i, hi⟩ := List.getElem?_of_mem hmem
    have hlt := (List.getElem?_eq_some_iff.1 hi).1
    rw [hlength] at hlt
    obtain ⟨found, hfound, hrestates⟩ := hentries i _ (List.getElem?_eq_getElem hlt)
    obtain rfl : token = found := Option.some.inj (hi.symm.trans hfound)
    simpa using hrestates.kind_ne_error (arrangement.entries[i]).isLexeme
  · simp [endToken]

end Source

end Arrangement

/-- The entries of an arrangement are scanned as they are by themselves, where they are put. -/
theorem tokenize_arrangement (arrangement : Arrangement) :
    (tokenize arrangement.source).value.errorCount = 0 ∧
    (tokenize arrangement.source).value.size = arrangement.entries.length + 1 ∧
    (∀ (i : Nat) (entry : Entry), arrangement.entries[i]? = some entry → ∃ token : Token,
      (tokenize arrangement.source).value.tokens[i]? = some token ∧
        token.Restates entry.word (arrangement.offset i)) ∧
    ∃ last : Token,
      (tokenize arrangement.source).value.tokens[arrangement.entries.length]? = some last ∧
        last.kind = .eof ∧ last.span.start = (utf8 arrangement.source).length ∧
        last.span.stop = (utf8 arrangement.source).length := by
  obtain ⟨hlength, hentries⟩ := arrangement.tokensAfter_source
  have htokens := tokens_tokenize arrangement.source
  refine ⟨arrangement.errorCount_source, ?_, fun i entry hentry => ?_, ?_⟩
  · simp [TokenBuffer.size, ← Array.length_toList, htokens, hlength]
  · obtain ⟨token, htoken, hrestates⟩ := hentries i entry hentry
    have hlt := (List.getElem?_eq_some_iff.1 htoken).1
    refine ⟨token, ?_, hrestates⟩
    rw [← Array.getElem?_toList, htokens, List.getElem?_append_left hlt, htoken]
  · refine ⟨endToken arrangement.source.toList, ?_, rfl, ?_, ?_⟩
    · rw [← Array.getElem?_toList, htokens, ← hlength, List.getElem?_concat_length]
    · simp [endToken, Span.after, length_utf8]
    · simp [endToken, Span.after, length_utf8]

section Operators

theorem isLexeme_lt : IsLexeme "<" :=
  ⟨⟨.operator .lt, "<", ⟨0, 1, 0, 0⟩, .absent⟩, ⟨.eof, "", ⟨1, 1, 0, 1⟩, .absent⟩,
    by decide +kernel, by decide, by decide, rfl, rfl⟩

theorem isLexeme_assign : IsLexeme "=" :=
  ⟨⟨.operator .assign, "=", ⟨0, 1, 0, 0⟩, .absent⟩, ⟨.eof, "", ⟨1, 1, 0, 1⟩, .absent⟩,
    by decide +kernel, by decide, by decide, rfl, rfl⟩

def Arrangement.comparison : Arrangement where
  lead := "# é\n"
  entries := [⟨"<", "#\n", isLexeme_lt, @IsPadding.comment [] [] (by decide) .nil⟩,
    ⟨"=", "", isLexeme_assign, .nil⟩]
  isPadding_lead := @IsPadding.comment [' ', 'é'] [] (by decide) .nil
  apart := by simp

theorem tokenize_arrangement_comparison :
    Arrangement.comparison.source = "# é\n<#\n=" ∧
      Arrangement.comparison.entries[1]?.map Entry.word = some "=" ∧
      ∃ token : Token, (tokenize Arrangement.comparison.source).value.tokens[1]? = some token ∧
        token.Restates "=" (Arrangement.comparison.offset 1) := by
  obtain ⟨-, -, hentries, -⟩ := tokenize_arrangement Arrangement.comparison
  have htoken := hentries 1 ⟨"=", "", isLexeme_assign, .nil⟩ rfl
  exact ⟨by decide +kernel, rfl, htoken⟩

end Operators

end ImagingLexer
