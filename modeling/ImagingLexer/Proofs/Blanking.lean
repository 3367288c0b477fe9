import ImagingLexer.Proofs.Equality
import ImagingLexer.Proofs.Overwrite

/-! # Blanking a source

Comments, and blanks other than line feeds, can be overwritten with tabs without a trace in
the token buffer. What is left of the source after that is determined by the buffer, so two
sources have one buffer exactly if they are the same up to such bytes.
-/

namespace ImagingLexer

open Lexeme

/-- A line feed, or a byte of a token. -/
def isSignificant (source : String) (i : Nat) (byte : UInt8) : Bool :=
  byte = 0x0A ∨ ∃ token ∈ (tokenize source).value.tokens.toList, token.Covers i

def blankedBytes (source : String) : List UInt8 :=
  overwritten (isSignificant source) (utf8 source)

def gapMask : Mask where
  hides lexeme := lexeme.sort?.isNone && lexeme ≠ blank '\n'
  shows_lineFeed := by decide

theorem hides_gapMask_iff {lexeme : Lexeme} :
    gapMask.hides lexeme = true ↔ lexeme.sort? = none ∧ lexeme ≠ blank '\n' := by
  simp [gapMask]

section Blanked

variable {source : String}

theorem isSignificant_iff {i : Nat} {byte : UInt8} :
    isSignificant source i byte = true ↔
      byte = 0x0A ∨ ∃ token ∈ (tokenize source).value.tokens.toList, token.Covers i :=
  decide_eq_true_iff

theorem keeps_gapMask (source : String) : gapMask.Keeps source (isSignificant source) := by
  intro a lexeme b hsplit i byte hbyte
  have hparts := wellFormed_of_lexemes_eq hsplit
  have hi := lt_byteLength_of_getElem?_bytes hbyte
  rw [Bool.eq_iff_iff, isSignificant_iff, Bool.not_eq_true', ← Bool.not_eq_true,
    hides_gapMask_iff, not_and_not_right]
  constructor
  · rintro (rfl | ⟨token, hmem, hcovers⟩) hsort
    · exact hparts.eq_blank (lineFeed_mem_bytes_iff.1 (List.mem_of_getElem? hbyte))
    · have htoken := (covers_tokenize_iff hsplit hi).1 ⟨hmem, hcovers⟩
      simp [token?, hsort] at htoken
  · intro h
    cases hsort : lexeme.sort? with
    | none =>
      obtain rfl := h hsort
      obtain rfl : i = 0 := Nat.lt_one_iff.1 hi
      exact .inl (Option.some.inj hbyte).symm
    | some sort =>
      have htoken : ∃ token, lexeme.token? (spell a) = some token := by simp [token?, hsort]
      obtain ⟨token, htoken⟩ := htoken
      exact .inr ⟨token, (covers_tokenize_iff hsplit hi).2 htoken⟩

theorem isValidUTF8_blankedBytes (source : String) :
    (blankedBytes source).toByteArray.IsValidUTF8 :=
  gapMask.isValidUTF8_overwritten (keeps_gapMask source)

/-- The source with a tab in place of each byte that is not significant. -/
def blanked (source : String) : String :=
  .ofByteArray (blankedBytes source).toByteArray (isValidUTF8_blankedBytes source)

theorem utf8_blanked (source : String) : utf8 (blanked source) = blankedBytes source := by
  simp [utf8, blanked]

theorem blanked_eq (source : String) : blanked source = gapMask.overwrite source := by
  apply utf8_injective
  rw [utf8_blanked, gapMask.utf8_overwrite (keeps_gapMask source), blankedBytes]

theorem tokens_blanked (source : String) :
    (tokenize (blanked source)).value.tokens.toList = (tokenize source).value.tokens.toList := by
  have hkeep : ∀ (lexeme : Lexeme) (before : List Char) (token : Token),
      lexeme.token? before = some token → true = !gapMask.hides lexeme := by
    intro lexeme before token htoken
    rw [Bool.eq_iff_iff, Bool.not_eq_true', ← Bool.not_eq_true, hides_gapMask_iff]
    simp only [true_iff, not_and]
    intro hsort
    simp [token?, hsort] at htoken
  rw [blanked_eq, gapMask.tokens_overwrite hkeep rfl, List.filter_true]

theorem tokenize_blanked (source : String) :
    (tokenize (blanked source)).value = (tokenize source).value := by
  apply TokenBuffer.ext
  · exact Array.toList_inj.1 (tokens_blanked source)
  · rw [blanked_eq, Mask.lineIndex_overwrite]
  · rw [errorCount_eq_countP, errorCount_eq_countP, tokens_blanked]

end Blanked

section Determined

variable {a b source : String}

theorem getElem?_utf8_of_covers {token : Token} {i : Nat}
    (hmem : token ∈ (tokenize source).value.tokens.toList) (hcovers : token.Covers i) :
    (utf8 source)[i]? = (utf8 token.text)[i - token.span.start]? := by
  rcases mem_tokens_tokenize_iff.1 hmem with hmem | rfl
  · obtain ⟨before, lexeme, after, kind, value, hsplit, -, rfl⟩ := exists_of_mem_tokensAfter hmem
    obtain ⟨hstart, hstop⟩ := hcovers
    simp only [Span.after, List.nil_append] at hstart hstop ⊢
    rw [utf8_eq_bytes, eq_spell_of_lexemes_eq hsplit, List.append_assoc, bytes_append,
      bytes_append, utf8_ofList, List.getElem?_append_right (by rwa [length_bytes]),
      List.getElem?_append_left (by rw [length_bytes, length_bytes]; omega), length_bytes]
  · exact absurd hcovers.2 (Nat.not_lt.2 hcovers.1)

theorem length_utf8_of_tokenize_eq (h : (tokenize a).value = (tokenize b).value) :
    (utf8 a).length = (utf8 b).length := by
  have htokens := congrArg (fun buffer => buffer.tokens.toList) h
  simp only [tokens_tokenize] at htokens
  have hend := (List.append_inj' htokens rfl).2
  have hstart : (endToken a.toList).span.start = (endToken b.toList).span.start := by
    rw [List.singleton_inj.1 hend]
  rw [length_utf8, length_utf8]
  exact hstart

theorem lineFeed_iff_of_tokenize_eq (h : (tokenize a).value = (tokenize b).value) (i : Nat) :
    (utf8 a)[i]? = some 0x0A ↔ (utf8 b)[i]? = some 0x0A := by
  have hindex : LineIndex.ofText a.toList = .ofText b.toList :=
    congrArg TokenBuffer.lineIndex h
  rw [utf8_eq_bytes, utf8_eq_bytes, ← mem_newlineOffsets_iff, ← mem_newlineOffsets_iff,
    ← LineIndex.take_breaks_ofText, ← LineIndex.take_breaks_ofText, hindex]

theorem blanked_eq_of_tokenize_eq (h : (tokenize a).value = (tokenize b).value) :
    blanked a = blanked b := by
  apply utf8_injective
  rw [utf8_blanked, utf8_blanked]
  apply List.ext_getElem?
  intro i
  have hsignificant : isSignificant a i = isSignificant b i := by
    ext byte
    rw [Bool.eq_iff_iff, isSignificant_iff, isSignificant_iff, h]
  simp only [blankedBytes, overwritten, List.getElem?_mapIdx, hsignificant]
  by_cases hcovers : ∃ token ∈ (tokenize b).value.tokens.toList, token.Covers i
  · obtain ⟨token, hmem, hcovers⟩ := hcovers
    rw [getElem?_utf8_of_covers (h ▸ hmem) hcovers, getElem?_utf8_of_covers hmem hcovers]
  · have hbyte : ∀ byte, isSignificant b i byte = true ↔ byte = 0x0A := by
      intro byte
      rw [isSignificant_iff, or_iff_left hcovers]
    have hlength := length_utf8_of_tokenize_eq h
    have hlineFeed := lineFeed_iff_of_tokenize_eq h i
    rcases Nat.lt_or_ge i (utf8 a).length with hlt | hge
    · rw [List.getElem?_eq_getElem hlt, List.getElem?_eq_getElem (hlength ▸ hlt)] at hlineFeed ⊢
      simp only [Option.some.injEq] at hlineFeed
      simp only [Option.map_some, hbyte, hlineFeed]
      split
      next heq => rw [hlineFeed.2 heq, heq]
      next => rfl
    · rw [List.getElem?_eq_none hge, List.getElem?_eq_none (hlength ▸ hge)]

end Determined

section Comments

/-- A number sign that no token covers stands in a comment. -/
theorem exists_comment_of_uncovered {source : String} {before rest : List Char}
    (htext : source.toList = before ++ '#' :: rest)
    (huncovered : ∀ token ∈ (tokenize source).value.tokens.toList,
      ¬ token.Covers (byteLength before)) :
    ∃ a body b u v, lexemes source.toList = a ++ comment body :: b ∧
      '#' :: body = u ++ '#' :: v ∧ before = spell a ++ u ∧ rest = v ++ spell b := by
  have hspell := spell_lexemes source.toList
  rw [htext] at hspell
  obtain ⟨a, lexeme, b, u, v, hsplit, hlexeme, rfl, rfl⟩ := exists_split_of_spell_eq hspell
  rw [← htext] at hsplit
  have hparts := wellFormed_of_lexemes_eq hsplit
  have hinside : byteLength u < byteLength lexeme.text := by
    have := '#'.utf8Size_pos
    rw [hlexeme, byteLength_append, byteLength_cons]
    omega
  have hsort : lexeme.sort? = none := by
    by_contra hsort
    obtain ⟨sort, hsort⟩ := Option.ne_none_iff_exists'.1 hsort
    have htoken : lexeme.token? (spell a) =
        some ⟨sort.1, String.ofList lexeme.text, .after (spell a) lexeme.text, sort.2⟩ := by
      rw [token?, hsort, Option.map_some]
    obtain ⟨hmem, hcovers⟩ := (covers_tokenize_iff hsplit hinside).2 htoken
    rw [← byteLength_append] at hcovers
    exact huncovered _ hmem hcovers
  rcases sort?_eq_none_iff.1 hsort with ⟨c, rfl⟩ | ⟨body, rfl⟩
  · rcases List.singleton_eq_append_iff.1 hlexeme with ⟨-, h⟩ | ⟨-, h⟩
    · obtain ⟨rfl, -⟩ := List.cons.inj h
      cases hparts
    · cases h
  · exact ⟨a, body, b, u, v, hsplit, hlexeme, rfl, rfl⟩

theorem lexemes_comment {a b : List Lexeme} {body u v old new after : List Char}
    (hseparated : Separated (a ++ comment body :: b) []) (hbody : '#' :: body = u ++ '#' :: v)
    (hrest : old ++ after = v ++ spell b) (hold : '\n' ∉ old) (hnew : '\n' ∉ new) :
    ∃ body', byteLength body' + byteLength old = byteLength body + byteLength new ∧
      lexemes (spell a ++ u ++ '#' :: (new ++ after)) = a ++ comment body' :: b := by
  obtain ⟨-, hparts, hstop, -⟩ := separated_append.1 hseparated
  rw [List.append_nil] at hstop
  obtain ⟨tail, rfl, rfl⟩ : ∃ tail, v = old ++ tail ∧ after = tail ++ spell b := by
    rcases List.append_eq_append_iff.1 hrest with h | ⟨excess, rfl, hspell⟩
    · exact h
    · -- The old part cannot reach beyond the comment, where a line feed stands.
      cases excess with
      | nil => exact ⟨[], by simp, by simpa using hspell.symm⟩
      | cons c excess =>
        rw [hspell] at hstop
        obtain rfl := hstop c rfl
        exact absurd (List.mem_append_right v List.mem_cons_self) hold
  obtain ⟨body', hbody'⟩ : ∃ body', '#' :: body' = u ++ '#' :: (new ++ tail) := by
    cases u with
    | nil => exact ⟨_, rfl⟩
    | cons c u =>
      obtain ⟨rfl, -⟩ := List.cons.inj hbody
      exact ⟨_, rfl⟩
  have hclean : '\n' ∉ body' := by
    have hclean : '\n' ∉ u ++ '#' :: (old ++ tail) := by
      rw [← hbody]
      simpa using fun h => hparts _ h rfl
    intro hmem
    have hmem : '\n' ∈ u ++ '#' :: (new ++ tail) := hbody' ▸ List.mem_cons_of_mem _ hmem
    simp only [List.mem_append, List.mem_cons] at hclean hmem
    tauto
  refine ⟨body', ?_, ?_⟩
  · have hlength := congrArg byteLength hbody
    have hlength' := congrArg byteLength hbody'
    simp only [byteLength_cons, byteLength_append] at hlength hlength'
    omega
  · refine lexemes_eq_iff.2 ⟨?_, hseparated.comment hclean⟩
    rw [spell_append, spell_cons, Lexeme.text, hbody']
    simp

theorem tokenize_comment {source source' : String} {before old new after : List Char}
    (hsource : source.toList = before ++ '#' :: (old ++ after))
    (hsource' : source'.toList = before ++ '#' :: (new ++ after))
    (hold : '\n' ∉ old) (hnew : '\n' ∉ new) (hlength : byteLength new = byteLength old)
    (huncovered : ∀ token ∈ (tokenize source).value.tokens.toList,
      ¬ token.Covers (byteLength before)) :
    (tokenize source').value = (tokenize source).value := by
  obtain ⟨a, body, b, u, v, hsplit, hbody, rfl, hrest⟩ :=
    exists_comment_of_uncovered hsource huncovered
  have hseparated := separated_lexemes source.toList
  rw [hsplit] at hseparated
  obtain ⟨body', hlength', hsplit'⟩ := lexemes_comment hseparated hbody hrest hold hnew
  rw [← hsource'] at hsplit'
  have hbytes : byteLength (comment body').text = byteLength (comment body).text := by
    rw [Lexeme.text, Lexeme.text, byteLength_cons, byteLength_cons]
    omega
  have hcover : gapMask.cover (comment body') = gapMask.cover (comment body) := by
    rw [Mask.cover, Mask.cover, hbytes]
    rfl
  rw [← tokenize_blanked source', ← tokenize_blanked source, blanked_eq, blanked_eq,
    Mask.overwrite, Mask.overwrite, hsplit, hsplit', Mask.apply, Mask.apply, List.flatMap_append,
    List.flatMap_append, List.flatMap_cons, List.flatMap_cons, hcover]

end Comments

/-- Buffers are equal exactly if their sources are equal when blanked. -/
theorem beq_tokenize_iff_blanked :
    (∀ source : String,
      ((tokenize (blanked source)).value == (tokenize source).value) = true) ∧
    (∀ a b : String,
      ((tokenize a).value == (tokenize b).value) = true ↔ blanked a = blanked b) ∧
    (∀ before old new after : String, '\n' ∉ old.toList → '\n' ∉ new.toList →
      (utf8 new).length = (utf8 old).length →
      (∀ token ∈ (tokenize (before ++ "#" ++ old ++ after)).value.tokens.toList,
        ¬ token.Covers (utf8 before).length) →
      ((tokenize (before ++ "#" ++ new ++ after)).value ==
        (tokenize (before ++ "#" ++ old ++ after)).value) = true) ∧
    (∀ source : String, ((tokenize source).value == (tokenize source).value) = true ∧
      ∀ token ∈ (tokenize source).value.tokens, ∀ x, token.value = .float x →
        x.isNaN = false) := by
  refine ⟨?_, ?_, ?_, ?_⟩
  · intro source
    rw [beq_tokenize_iff]
    exact tokenize_blanked source
  · intro a b
    rw [beq_tokenize_iff]
    constructor
    · exact blanked_eq_of_tokenize_eq
    · intro h
      rw [← tokenize_blanked a, ← tokenize_blanked b, h]
  · intro before old new after hold hnew hlength huncovered
    rw [length_utf8, length_utf8] at hlength
    rw [length_utf8] at huncovered
    have htext : ∀ text : String, (before ++ "#" ++ text ++ after).toList =
        before.toList ++ '#' :: (text.toList ++ after.toList) := by simp
    rw [beq_tokenize_iff]
    exact tokenize_comment (htext old) (htext new) hold hnew hlength huncovered
  · intro source
    constructor
    · rw [beq_tokenize_iff]
    · intro token hmem x hvalue
      exact (isPlain_of_mem_tokenize hmem x hvalue).1

theorem beq_tokenize_quote_in_comment :
    ((tokenize ("x " ++ "#" ++ "+" ++ "\n")).value ==
      (tokenize ("x " ++ "#" ++ "\"" ++ "\n")).value) = true := by
  refine beq_tokenize_iff_blanked.2.2.1 "x " "\"" "+" "\n" (by decide) (by decide) rfl ?_
  have hsplit : lexemes ("x " ++ "#" ++ "\"" ++ "\n").toList =
      [word ['x'], blank ' '] ++ comment ['"'] :: [blank '\n'] := by
    refine lexemes_eq_iff.2 ⟨rfl, ⟨'x', [], rfl, rfl, by simp⟩, ?_, rfl, trivial, ?_, ?_, rfl,
      trivial, trivial⟩
    · rintro c ⟨⟩
      decide
    · simp [WellFormed]
    · rintro c ⟨⟩
      rfl
  intro token hmem hcovers
  have htoken := (@covers_tokenize_iff token 0 _ _ _ _ hsplit (by decide)).1 ⟨hmem, hcovers⟩
  cases htoken

end ImagingLexer
