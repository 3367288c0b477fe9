import ImagingLexer.Proofs.Lexeme.Meaning
import ImagingLexer.Proofs.Lexeme.Sequence
import ImagingLexer.Proofs.LineIndex
import ImagingLexer.Scan

/-! # The tokens of a scan

A scan makes one token of each lexeme that is neither a blank nor a comment. The token
is determined by the lexeme and the text before it, so that the tokens of a source are a
function of its sequence of lexemes alone.
-/

namespace ImagingLexer

/-- The span of `text` when it stands after `before`. -/
def Span.after (before text : List Char) : Span :=
  ⟨byteLength before, byteLength before + byteLength text, (Location.after before).line,
    (Location.after before).column⟩

namespace Lexeme

/-- The token of a lexeme that stands after `before`, unless it is skipped. -/
def token? (before : List Char) (lexeme : Lexeme) : Option Token :=
  lexeme.sort?.map fun sort =>
    ⟨sort.1, String.ofList lexeme.text, .after before lexeme.text, sort.2⟩

theorem token?_eq_some_iff {lexeme : Lexeme} {before : List Char} {token : Token} :
    lexeme.token? before = some token ↔ ∃ kind value, lexeme.sort? = some (kind, value) ∧
      token = ⟨kind, String.ofList lexeme.text, .after before lexeme.text, value⟩ := by
  unfold token?
  rw [Option.map_eq_some_iff]
  constructor
  · rintro ⟨⟨kind, value⟩, hsort, rfl⟩
    exact ⟨kind, value, hsort, rfl⟩
  · rintro ⟨kind, value, hsort, rfl⟩
    exact ⟨(kind, value), hsort, rfl⟩

theorem lineFeed_not_mem_of_sort? {lexeme : Lexeme} {sort : Kind × Value}
    (h : lexeme.WellFormed) (hsort : lexeme.sort? = some sort) : '\n' ∉ lexeme.text := by
  intro hmem
  cases h.eq_blank hmem
  cases hsort

end Lexeme

def tokensAfter (before : List Char) : List Lexeme → List Token
  | [] => []
  | lexeme :: lexemes =>
    (lexeme.token? before).toList ++ tokensAfter (before ++ lexeme.text) lexemes

@[simp] theorem tokensAfter_nil (before : List Char) : tokensAfter before [] = [] := rfl

@[simp] theorem tokensAfter_cons (before : List Char) (lexeme : Lexeme)
    (lexemes : List Lexeme) :
    tokensAfter before (lexeme :: lexemes) =
      (lexeme.token? before).toList ++ tokensAfter (before ++ lexeme.text) lexemes := rfl

theorem tokensAfter_append (before : List Char) (a b : List Lexeme) :
    tokensAfter before (a ++ b) =
      tokensAfter before a ++ tokensAfter (before ++ Lexeme.spell a) b := by
  induction a generalizing before with
  | nil => simp
  | cons lexeme a ih => simp [ih]

theorem exists_of_tokensAfter_eq_append {before : List Char} {lexemes : List Lexeme}
    {first last : List Token} {token : Token}
    (h : tokensAfter before lexemes = first ++ token :: last) :
    ∃ a lexeme b, lexemes = a ++ lexeme :: b ∧
      lexeme.token? (before ++ Lexeme.spell a) = some token ∧
        last = tokensAfter (before ++ Lexeme.spell a ++ lexeme.text) b := by
  induction lexemes generalizing before first with
  | nil => simp at h
  | cons lexeme lexemes ih =>
    have hmore : ∀ more, tokensAfter (before ++ lexeme.text) lexemes = more ++ token :: last →
        ∃ a found b, lexeme :: lexemes = a ++ found :: b ∧
          found.token? (before ++ Lexeme.spell a) = some token ∧
            last = tokensAfter (before ++ Lexeme.spell a ++ found.text) b := by
      intro more hmore
      obtain ⟨a, found, b, rfl, htoken, rfl⟩ := ih hmore
      exact ⟨lexeme :: a, found, b, rfl, by simpa using htoken, by simp⟩
    rw [tokensAfter_cons] at h
    cases htoken : lexeme.token? before with
    | none => exact hmore first (by simpa [htoken] using h)
    | some found =>
      rw [htoken, Option.toList_some, List.singleton_append] at h
      cases first with
      | nil =>
        obtain ⟨rfl, rfl⟩ := List.cons.inj h
        exact ⟨[], lexeme, lexemes, rfl, by simpa using htoken, by simp⟩
      | cons head first => exact hmore first (List.cons.inj h).2

theorem exists_of_mem_tokensAfter {before : List Char} {lexemes : List Lexeme} {token : Token}
    (h : token ∈ tokensAfter before lexemes) :
    ∃ a lexeme b kind value, lexemes = a ++ lexeme :: b ∧
      lexeme.sort? = some (kind, value) ∧ token = ⟨kind, String.ofList lexeme.text,
        .after (before ++ Lexeme.spell a) lexeme.text, value⟩ := by
  obtain ⟨first, last, h⟩ := List.append_of_mem h
  obtain ⟨a, lexeme, b, hsplit, htoken, -⟩ := exists_of_tokensAfter_eq_append h
  obtain ⟨kind, value, hsort, rfl⟩ := Lexeme.token?_eq_some_iff.1 htoken
  exact ⟨a, lexeme, b, kind, value, hsplit, hsort, rfl⟩

theorem mem_tokensAfter_of_token? {before : List Char} {a b : List Lexeme} {lexeme : Lexeme}
    {token : Token} (h : lexeme.token? (before ++ Lexeme.spell a) = some token) :
    token ∈ tokensAfter before (a ++ lexeme :: b) := by
  simp [tokensAfter_append, h]

theorem bounds_of_mem_tokensAfter {before : List Char} {lexemes : List Lexeme} {token : Token}
    (h : token ∈ tokensAfter before lexemes) :
    byteLength before ≤ token.span.start ∧ token.span.start ≤ token.span.stop ∧
      token.span.stop ≤ byteLength before + byteLength (Lexeme.spell lexemes) := by
  obtain ⟨a, lexeme, b, kind, value, rfl, -, rfl⟩ := exists_of_mem_tokensAfter h
  simp only [Span.after, byteLength_append, Lexeme.spell_append, Lexeme.spell_cons]
  omega

theorem pairwise_start_tokensAfter {before : List Char} {lexemes : List Lexeme}
    (hparts : ∀ lexeme ∈ lexemes, lexeme.WellFormed) :
    (tokensAfter before lexemes).Pairwise fun a b => a.span.start < b.span.start := by
  induction lexemes generalizing before with
  | nil => exact .nil
  | cons lexeme lexemes ih =>
    obtain ⟨hlexeme, hlexemes⟩ := List.forall_mem_cons.1 hparts
    rw [tokensAfter_cons]
    cases htoken : lexeme.token? before with
    | none => exact ih hlexemes
    | some token =>
      refine .cons (fun next hnext => ?_) (ih hlexemes)
      obtain ⟨kind, value, -, rfl⟩ := Lexeme.token?_eq_some_iff.1 htoken
      have hnonempty := byteLength_eq_zero_iff.not.2 hlexeme.text_ne_nil
      have hbounds := bounds_of_mem_tokensAfter hnext
      rw [byteLength_append] at hbounds
      show byteLength before < next.span.start
      omega

theorem kind_ne_eof_of_mem {before : List Char} {lexemes : List Lexeme} {token : Token}
    (h : token ∈ tokensAfter before lexemes) : token.kind ≠ .eof := by
  obtain ⟨a, lexeme, b, kind, value, -, hsort, rfl⟩ := exists_of_mem_tokensAfter h
  exact Lexeme.kind_ne_eof hsort

theorem countP_error_tokensAfter (before : List Char) (lexemes : List Lexeme) :
    (tokensAfter before lexemes).countP (·.kind = .error) =
      lexemes.countP Lexeme.isBroken := by
  induction lexemes generalizing before with
  | nil => rfl
  | cons lexeme lexemes ih =>
    rw [tokensAfter_cons, List.countP_append, ih, List.countP_cons, Nat.add_comm]
    congr 1
    cases hsort : lexeme.sort? with
    | none => rcases Lexeme.sort?_eq_none_iff.1 hsort with ⟨c, rfl⟩ | ⟨body, rfl⟩ <;> rfl
    | some sort =>
      have herror := Lexeme.kind_eq_error_iff hsort
      simp [Lexeme.token?, hsort, herror, List.countP_cons]

def endToken (text : List Char) : Token := ⟨.eof, "", .after text [], .absent⟩

theorem Token.cover_ofText (before rest text : List Char) (kind : Kind) (value : Value) :
    Token.cover (.ofText (before ++ rest)) (byteLength before) text kind value =
      ⟨kind, String.ofList text, .after before text, value⟩ := by
  simp only [Token.cover, LineIndex.location_ofText_append, Span.after]

section Shift

def Span.shift (bytes : Nat) (location : Location) (span : Span) : Span :=
  let shifted := location.shift span.location
  ⟨span.start + bytes, span.stop + bytes, shifted.line, shifted.column⟩

def Token.shift (bytes : Nat) (location : Location) (token : Token) : Token :=
  { token with span := token.span.shift bytes location }

theorem Span.after_append (a before text : List Char) :
    Span.after (a ++ before) text =
      (Span.after before text).shift (byteLength a) (.after a) := by
  simp only [Span.after, Span.shift, Span.location, Location.after_append, byteLength_append,
    Span.mk.injEq, and_true]
  omega

theorem Lexeme.token?_append (a before : List Char) (lexeme : Lexeme) :
    lexeme.token? (a ++ before) =
      (lexeme.token? before).map (.shift (byteLength a) (.after a)) := by
  simp only [Lexeme.token?, Option.map_map, Span.after_append]
  rfl

/-- What stands before lexemes only moves their tokens. -/
theorem tokensAfter_shift (a before : List Char) (lexemes : List Lexeme) :
    tokensAfter (a ++ before) lexemes =
      (tokensAfter before lexemes).map (.shift (byteLength a) (.after a)) := by
  induction lexemes generalizing before with
  | nil => rfl
  | cons lexeme lexemes ih =>
    rw [tokensAfter_cons, tokensAfter_cons, List.map_append, Lexeme.token?_append,
      List.append_assoc, ih, Option.toList_map]

theorem endToken_append (a b : List Char) :
    endToken (a ++ b) = (endToken b).shift (byteLength a) (.after a) := by
  rw [endToken, Span.after_append]
  rfl

end Shift

namespace Scan

variable {index : LineIndex} {scan : Scan} {before : List Char}

theorem tokens_accept {lexeme : Lexeme} {rest more : List Char}
    (hoffset : scan.offset = byteLength before) (hindex : index = .ofText (before ++ more)) :
    (scan.accept index lexeme rest).tokens.toList =
      scan.tokens.toList ++ (lexeme.token? before).toList := by
  subst hindex
  unfold accept Lexeme.token? Lexeme.sort?
  simp only [hoffset, Token.cover_ofText]
  split
  next h => simp [h, Meaning.sort?]
  next h => simp [h, Meaning.sort?]
  next h => simp [h, Meaning.sort?]

theorem errorCount_accept (lexeme : Lexeme) (rest : List Char) :
    (scan.accept index lexeme rest).errorCount =
      scan.errorCount + if lexeme.isBroken then 1 else 0 := by
  unfold accept Lexeme.isBroken
  dsimp only
  split <;> simp_all

/-- What a scan that stands after `before` has found when it comes to its end. -/
theorem run_spec (hoffset : scan.offset = byteLength before)
    (hindex : index = .ofText (before ++ scan.rest)) :
    (scan.run index).offset = byteLength (before ++ scan.rest) ∧
      (scan.run index).tokens.toList =
        scan.tokens.toList ++ tokensAfter before (lexemes scan.rest) ∧
      (scan.run index).errorCount =
        scan.errorCount + (lexemes scan.rest).countP Lexeme.isBroken := by
  fun_induction run index scan generalizing before with
  | case1 scan h => simp [h, hoffset]
  | case2 scan h ih =>
    obtain ⟨c, rest, hrest⟩ := List.exists_cons_of_ne_nil h
    have htext := Lexeme.text_append_first c rest
    rw [step_of_rest_eq_cons index hrest] at ih ⊢
    rw [hrest] at hindex ⊢
    obtain ⟨hend, htokens, herrors⟩ :=
      @ih (before ++ (Lexeme.first c rest).1.text) (by simp [hoffset]) (by simp [hindex, htext])
    rw [rest_accept] at hend htokens herrors
    refine ⟨?_, ?_, ?_⟩
    · rw [hend, List.append_assoc, htext]
    · rw [htokens, tokens_accept hoffset hindex, lexemes_cons, tokensAfter_cons,
        List.append_assoc]
    · rw [herrors, errorCount_accept, lexemes_cons, List.countP_cons, Nat.add_assoc,
        Nat.add_comm (List.countP _ _)]

end Scan

theorem tokens_tokenize (source : String) :
    (tokenize source).value.tokens.toList =
      tokensAfter [] (lexemes source.toList) ++ [endToken source.toList] := by
  obtain ⟨hend, htokens, -⟩ :=
    @Scan.run_spec (.ofSource source) (.start source.toList) [] rfl rfl
  have hcover := Token.cover_ofText source.toList [] [] .eof .absent
  rw [List.append_nil] at hcover
  have hlast : (Scan.start source.toList |>.run (.ofSource source)).offset =
      byteLength source.toList := hend
  simp only [tokenize, Scan.finish, Array.toList_push, htokens, hlast]
  exact congrArg (_ ++ [·]) hcover

theorem mem_tokens_tokenize_iff {source : String} {token : Token} :
    token ∈ (tokenize source).value.tokens.toList ↔
      token ∈ tokensAfter [] (lexemes source.toList) ∨ token = endToken source.toList := by
  rw [tokens_tokenize, List.mem_append, List.mem_singleton]

theorem stop_of_mem_tokenize {source : String} {token : Token}
    (h : token ∈ (tokenize source).value.tokens.toList) :
    token.span.stop = token.span.start + byteLength token.text.toList := by
  rcases mem_tokens_tokenize_iff.1 h with h | rfl
  · obtain ⟨a, lexeme, b, kind, value, -, -, rfl⟩ := exists_of_mem_tokensAfter h
    simp only [Span.after, String.toList_ofList]
  · rfl

/-- After its first lexeme a source is scanned like a source of its own. -/
theorem tokens_tokenize_text_append {lexeme : Lexeme} {rest : List Char} {kind : Kind}
    {value : Value} (hparts : lexeme.WellFormed) (hstop : lexeme.StopsBefore rest.head?)
    (hsort : lexeme.sort? = some (kind, value)) :
    (tokenize (String.ofList (lexeme.text ++ rest))).value.tokens.toList =
      ⟨kind, String.ofList lexeme.text, .after [] lexeme.text, value⟩ ::
        (tokenize (String.ofList rest)).value.tokens.toList.map
          (.shift (byteLength lexeme.text) (.after lexeme.text)) := by
  have hrest := tokensAfter_shift lexeme.text [] (lexemes rest)
  rw [List.append_nil] at hrest
  simp [tokens_tokenize, lexemes_text_append hparts hstop, Lexeme.token?, hsort, hrest,
    endToken_append]

theorem tokens_tokenize_text {lexeme : Lexeme} {kind : Kind} {value : Value}
    (hparts : lexeme.WellFormed) (hstop : lexeme.StopsBefore none)
    (hsort : lexeme.sort? = some (kind, value)) :
    (tokenize (String.ofList lexeme.text)).value.tokens.toList =
      [⟨kind, String.ofList lexeme.text, .after [] lexeme.text, value⟩,
        endToken lexeme.text] := by
  have hwhole := @tokens_tokenize_text_append lexeme [] kind value hparts hstop hsort
  have hend := endToken_append lexeme.text []
  rw [List.append_nil] at hwhole hend
  simpa [tokens_tokenize, hend] using hwhole

theorem pairwise_start_tokenize (source : String) :
    (tokenize source).value.tokens.toList.Pairwise fun a b => a.span.start < b.span.start := by
  have hparts : ∀ lexeme ∈ lexemes source.toList, lexeme.WellFormed :=
    fun _ => wellFormed_of_mem_lexemes
  rw [tokens_tokenize, List.pairwise_append]
  refine ⟨pairwise_start_tokensAfter hparts, List.pairwise_singleton .., ?_⟩
  intro token htoken last hlast
  obtain rfl := List.mem_singleton.1 hlast
  obtain ⟨a, lexeme, b, kind, value, hsplit, -, rfl⟩ := exists_of_mem_tokensAfter htoken
  have hnonempty := byteLength_eq_zero_iff.not.2 (wellFormed_of_lexemes_eq hsplit).text_ne_nil
  have hlength := congrArg byteLength (eq_spell_of_lexemes_eq hsplit)
  simp only [byteLength_append] at hlength
  simp only [Span.after, endToken, List.nil_append]
  omega

theorem isSome_fault?_of_mem_tokenize {source : String} {token : Token}
    (h : token ∈ (tokenize source).value.tokens.toList) :
    token.fault?.isSome = true ↔ token.kind = .error := by
  rw [Option.isSome_iff_exists]
  simp only [Token.fault?_eq_some_iff]
  rcases mem_tokens_tokenize_iff.1 h with h | rfl
  · obtain ⟨a, lexeme, b, kind, value, -, hsort, rfl⟩ := exists_of_mem_tokensAfter h
    rcases Lexeme.sort?_eq_some_iff.1 hsort with hmeaning | ⟨fault, -, rfl, rfl⟩
    · obtain ⟨-, herror, hvalue, -⟩ := Lexeme.token_of_meaning hmeaning
      simp [herror, hvalue]
    · simp
  · simp [endToken]

theorem filter_tokens_tokenize (source : String) :
    (tokenize source).value.tokens.toList.filter (·.kind ≠ .eof) =
      tokensAfter [] (lexemes source.toList) := by
  have hall : ∀ token ∈ tokensAfter [] (lexemes source.toList), decide (token.kind ≠ .eof) :=
    fun token htoken => by simpa using kind_ne_eof_of_mem htoken
  rw [tokens_tokenize, List.filter_append, List.filter_eq_self.2 hall]
  exact List.append_nil _

theorem errorCount_tokenize (source : String) :
    (tokenize source).value.errorCount = (lexemes source.toList).countP Lexeme.isBroken := by
  obtain ⟨-, -, herrors⟩ :=
    @Scan.run_spec (.ofSource source) (.start source.toList) [] rfl rfl
  exact herrors.trans (Nat.zero_add _)

theorem errorCount_eq_countP (source : String) :
    (tokenize source).value.errorCount =
      (tokenize source).value.tokens.toList.countP (·.kind = .error) := by
  rw [errorCount_tokenize, tokens_tokenize, List.countP_append, countP_error_tokensAfter]
  rfl

end ImagingLexer
