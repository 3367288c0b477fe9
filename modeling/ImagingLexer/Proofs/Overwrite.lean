import ImagingLexer.Proofs.Bytes
import ImagingLexer.Proofs.Scan

/-! # Overwriting lexemes

Some lexemes of a source are overwritten with tabs, byte for byte, but never a line feed. The
lexemes that are kept are then found again at the same locations, with nothing but blanks in
place of the others.
-/

namespace ImagingLexer

open Lexeme

/-- The bytes of a source, with a tab in place of each byte that is not kept. -/
def overwritten (kept : Nat → UInt8 → Bool) (source : List UInt8) : List UInt8 :=
  source.mapIdx fun i byte => if kept i byte then byte else 0x09

def Token.Covers (token : Token) (i : Nat) : Prop :=
  token.span.start ≤ i ∧ i < token.span.stop

instance (token : Token) (i : Nat) : Decidable (token.Covers i) :=
  inferInstanceAs (Decidable (_ ∧ _))

/-- A choice of lexemes to overwrite, of which none is a line feed. -/
structure Mask where
  hides : Lexeme → Bool
  shows_lineFeed : hides (blank '\n') = false

namespace Mask

variable (mask : Mask) {lexeme : Lexeme} {lexemes : List Lexeme}

def cover (lexeme : Lexeme) : List Lexeme :=
  if mask.hides lexeme then List.replicate (byteLength lexeme.text) (blank '\t') else [lexeme]

def apply (lexemes : List Lexeme) : List Lexeme := lexemes.flatMap mask.cover

@[simp] theorem apply_nil : mask.apply [] = [] := rfl

@[simp] theorem apply_cons (lexeme : Lexeme) (lexemes : List Lexeme) :
    mask.apply (lexeme :: lexemes) = mask.cover lexeme ++ mask.apply lexemes := by
  simp [apply]

theorem apply_concat (lexemes : List Lexeme) (lexeme : Lexeme) :
    mask.apply (lexemes ++ [lexeme]) = mask.apply lexemes ++ mask.cover lexeme := by
  simp [apply]

theorem spell_replicate_tab (n : Nat) :
    spell (List.replicate n (blank '\t')) = List.replicate n '\t' := by
  induction n with
  | zero => rfl
  | succ n ih =>
    rw [List.replicate_succ, spell_cons, ih]
    rfl

theorem byteLength_replicate_tab (n : Nat) : byteLength (List.replicate n '\t') = n := by
  induction n with
  | zero => rfl
  | succ n ih =>
    rw [List.replicate_succ, byteLength_cons, ih, Nat.add_comm]
    rfl

theorem bytes_replicate_tab (n : Nat) :
    bytes (List.replicate n '\t') = List.replicate n 0x09 := by
  induction n with
  | zero => rfl
  | succ n ih =>
    rw [List.replicate_succ, bytes_cons, ih]
    rfl

theorem spell_cover_of_hides (h : mask.hides lexeme = true) :
    spell (mask.cover lexeme) = List.replicate (byteLength lexeme.text) '\t' := by
  rw [cover, if_pos h, spell_replicate_tab]

theorem spell_cover_of_shows (h : mask.hides lexeme = false) :
    spell (mask.cover lexeme) = lexeme.text := by
  simp [cover, h]

theorem not_mem_of_hides (hparts : lexeme.WellFormed) (h : mask.hides lexeme = true) :
    '\n' ∉ lexeme.text := by
  intro hmem
  rw [hparts.eq_blank hmem, mask.shows_lineFeed] at h
  cases h

section Separated

theorem separated_replicate_tab (n : Nat) (rest : List Char) :
    Separated (List.replicate n (blank '\t')) rest := by
  induction n with
  | zero => trivial
  | succ n ih => exact ⟨rfl, trivial, ih⟩

/-- A lexeme stops before tabs where it stopped before what they overwrite. -/
theorem stopsBefore_apply (h : Separated lexemes [])
    (hstop : lexeme.StopsBefore (spell lexemes).head?) :
    lexeme.StopsBefore (spell (mask.apply lexemes)).head? := by
  cases lexemes with
  | nil => exact hstop
  | cons next more =>
    have hparts : next.WellFormed := h.1
    obtain ⟨c, text, htext⟩ := List.exists_cons_of_ne_nil hparts.text_ne_nil
    rw [spell_cons, htext, List.cons_append, List.head?_cons] at hstop
    rw [apply_cons, spell_append]
    cases hnext : mask.hides next with
    | true =>
      obtain ⟨n, hn⟩ := Nat.exists_eq_succ_of_ne_zero
        (byteLength_eq_zero_iff.not.2 hparts.text_ne_nil)
      rw [mask.spell_cover_of_hides hnext, hn, List.replicate_succ, List.cons_append,
        List.head?_cons]
      apply stopsBefore_separator (by decide)
      · rintro content rfl
        cases hstop
      · exact fun _ _ => by decide
      · rintro body rfl
        obtain rfl := hstop c rfl
        exact absurd (htext ▸ List.mem_cons_self) (mask.not_mem_of_hides hparts hnext)
    | false =>
      rwa [mask.spell_cover_of_shows hnext, htext, List.cons_append, List.head?_cons]

theorem separated_apply (h : Separated lexemes []) : Separated (mask.apply lexemes) [] := by
  induction lexemes with
  | nil => trivial
  | cons lexeme lexemes ih =>
    obtain ⟨hparts, hstop, hlexemes⟩ := h
    rw [List.append_nil] at hstop
    rw [apply_cons, separated_append, List.append_nil]
    refine ⟨?_, ih hlexemes⟩
    unfold cover
    split
    · exact separated_replicate_tab _ _
    · exact ⟨hparts, mask.stopsBefore_apply hlexemes hstop, trivial⟩

theorem lexemes_spell_apply (text : List Char) :
    ImagingLexer.lexemes (spell (mask.apply (ImagingLexer.lexemes text))) =
      mask.apply (ImagingLexer.lexemes text) :=
  lexemes_eq_iff.2 ⟨rfl, mask.separated_apply (separated_lexemes text)⟩

end Separated

section Tokens

theorem sameLines_cover (hparts : lexeme.WellFormed) :
    SameLines lexeme.text (spell (mask.cover lexeme)) := by
  cases h : mask.hides lexeme with
  | true =>
    rw [mask.spell_cover_of_hides h]
    apply SameLines.of_not_mem
    · rw [byteLength_replicate_tab]
    · exact mask.not_mem_of_hides hparts h
    · simp
  | false =>
    rw [mask.spell_cover_of_shows h]
    exact .refl _

theorem sameLines_apply (h : ∀ lexeme ∈ lexemes, lexeme.WellFormed) :
    SameLines (spell lexemes) (spell (mask.apply lexemes)) := by
  induction lexemes with
  | nil => exact .refl _
  | cons lexeme lexemes ih =>
    obtain ⟨hparts, hlexemes⟩ := List.forall_mem_cons.1 h
    rw [apply_cons, spell_cons, spell_append]
    exact (mask.sameLines_cover hparts).append (ih hlexemes)

theorem tokensAfter_replicate_tab (before : List Char) (n : Nat) (more : List Lexeme) :
    tokensAfter before (List.replicate n (blank '\t') ++ more) =
      tokensAfter (before ++ List.replicate n '\t') more := by
  induction n generalizing before with
  | zero => simp
  | succ n ih =>
    rw [List.replicate_succ, List.cons_append, tokensAfter_cons, ih, List.replicate_succ,
      List.append_assoc]
    rfl

theorem token?_congr {before before' : List Char} (h : SameLines before before') :
    lexeme.token? before = lexeme.token? before' := by
  simp only [Lexeme.token?, Span.after, h.length, h.after]

theorem tokensAfter_apply {keep : Token → Bool} {before before' : List Char}
    (hkeep : ∀ lexeme ∈ lexemes, ∀ (before : List Char) (token : Token),
      lexeme.token? before = some token → keep token = !mask.hides lexeme)
    (hparts : ∀ lexeme ∈ lexemes, lexeme.WellFormed) (hbefore : SameLines before before') :
    tokensAfter before' (mask.apply lexemes) = (tokensAfter before lexemes).filter keep := by
  induction lexemes generalizing before before' with
  | nil => rfl
  | cons lexeme lexemes ih =>
    obtain ⟨hlexeme, hlexemes⟩ := List.forall_mem_cons.1 hkeep
    obtain ⟨hhead, htail⟩ := List.forall_mem_cons.1 hparts
    have hrest := ih hlexemes htail (hbefore.append (mask.sameLines_cover hhead))
    rw [apply_cons, tokensAfter_cons, List.filter_append, ← hrest]
    have htoken := hlexeme before
    cases h : mask.hides lexeme with
    | true =>
      rw [mask.spell_cover_of_hides h, cover, if_pos h, tokensAfter_replicate_tab]
      cases hsome : lexeme.token? before with
      | none => rfl
      | some token => simp [htoken token hsome, h]
    | false =>
      rw [mask.spell_cover_of_shows h, cover, h, if_neg (by decide), List.singleton_append,
        tokensAfter_cons, token?_congr hbefore]
      cases hsome : lexeme.token? before' with
      | none => rfl
      | some token =>
        rw [← token?_congr hbefore] at hsome
        simp [htoken token hsome, h]

end Tokens

section Bytes

theorem overwritten_append (kept : Nat → UInt8 → Bool) (a b : List UInt8) :
    overwritten kept (a ++ b) =
      overwritten kept a ++ overwritten (fun i => kept (a.length + i)) b := by
  simp only [overwritten, List.mapIdx_append, Nat.add_comm]

theorem overwritten_eq_self {kept : Nat → UInt8 → Bool} {source : List UInt8}
    (h : ∀ i byte, source[i]? = some byte → kept i byte = true) :
    overwritten kept source = source := by
  rw [overwritten, List.mapIdx_eq_iff]
  intro i
  cases hbyte : source[i]? with
  | none => rfl
  | some byte => simp [h i byte hbyte]

theorem overwritten_eq_replicate {kept : Nat → UInt8 → Bool} {source : List UInt8}
    (h : ∀ i byte, source[i]? = some byte → kept i byte = false) :
    overwritten kept source = List.replicate source.length 0x09 := by
  rw [overwritten, List.mapIdx_eq_replicate_iff]
  intro i hi
  simp [h i _ (List.getElem?_eq_getElem hi)]

theorem bytes_spell_apply {kept : Nat → UInt8 → Bool}
    (h : ∀ a lexeme b, lexemes = a ++ lexeme :: b → ∀ i byte,
      (bytes lexeme.text)[i]? = some byte →
        kept (byteLength (spell a) + i) byte = !mask.hides lexeme) :
    bytes (spell (mask.apply lexemes)) = overwritten kept (bytes (spell lexemes)) := by
  induction lexemes using List.reverseRecOn with
  | nil => rfl
  | append_singleton lexemes lexeme ih =>
    have hlast := h lexemes lexeme [] rfl
    have hinit := ih fun a found b hsplit => h a found (b ++ [lexeme]) (by simp [hsplit])
    rw [apply_concat, spell_append, bytes_append, hinit, spell_append, bytes_append,
      overwritten_append, length_bytes]
    congr 1
    cases hhides : mask.hides lexeme with
    | true =>
      rw [mask.spell_cover_of_hides hhides, bytes_replicate_tab, spell_cons, spell_nil,
        List.append_nil, overwritten_eq_replicate, length_bytes]
      intro i byte hbyte
      rw [hlast i byte hbyte, hhides]
      rfl
    | false =>
      rw [mask.spell_cover_of_shows hhides, spell_cons, spell_nil, List.append_nil,
        overwritten_eq_self]
      intro i byte hbyte
      rw [hlast i byte hbyte, hhides]
      rfl

end Bytes

section Source

variable {source : String} {kept : Nat → UInt8 → Bool}

def overwrite (source : String) : String :=
  String.ofList (spell (mask.apply (ImagingLexer.lexemes source.toList)))

/-- Of the bytes of a source, exactly those of the lexemes that are shown are kept. -/
def Keeps (source : String) (kept : Nat → UInt8 → Bool) : Prop :=
  ∀ a lexeme b, ImagingLexer.lexemes source.toList = a ++ lexeme :: b → ∀ i byte,
    (bytes lexeme.text)[i]? = some byte →
      kept (byteLength (spell a) + i) byte = !mask.hides lexeme

theorem toList_overwrite (source : String) :
    (mask.overwrite source).toList =
      spell (mask.apply (ImagingLexer.lexemes source.toList)) :=
  String.toList_ofList

theorem utf8_overwrite (h : mask.Keeps source kept) :
    utf8 (mask.overwrite source) = overwritten kept (utf8 source) := by
  rw [overwrite, utf8_ofList, mask.bytes_spell_apply h, spell_lexemes, ← utf8_eq_bytes]

theorem isValidUTF8_overwritten (h : mask.Keeps source kept) :
    (overwritten kept (utf8 source)).toByteArray.IsValidUTF8 := by
  rw [← mask.utf8_overwrite h, overwrite, utf8_ofList]
  exact ⟨_, rfl⟩

theorem sameLines_overwrite (source : String) :
    SameLines source.toList (mask.overwrite source).toList := by
  have hsame := @sameLines_apply mask (ImagingLexer.lexemes source.toList)
    (fun _ => wellFormed_of_mem_lexemes)
  rwa [spell_lexemes, ← toList_overwrite] at hsame

theorem lineIndex_overwrite (source : String) :
    (tokenize (mask.overwrite source)).value.lineIndex = (tokenize source).value.lineIndex :=
  (mask.sameLines_overwrite source).ofText.symm

theorem endToken_congr {a b : List Char} (h : SameLines a b) : endToken a = endToken b := by
  simp only [endToken, Span.after, h.length, h.after]

/-- Overwriting lexemes takes their tokens away and leaves the others as they are. -/
theorem tokens_overwrite {keep : Token → Bool}
    (hkeep : ∀ (lexeme : Lexeme) (before : List Char) (token : Token),
      lexeme.token? before = some token → keep token = !mask.hides lexeme)
    (hend : keep (endToken source.toList) = true) :
    (tokenize (mask.overwrite source)).value.tokens.toList =
      (tokenize source).value.tokens.toList.filter keep := by
  have htokens := @tokensAfter_apply mask (ImagingLexer.lexemes source.toList) keep [] []
    (fun lexeme _ => hkeep lexeme) (fun _ => wellFormed_of_mem_lexemes) (.refl [])
  rw [tokens_tokenize, tokens_tokenize, ← endToken_congr (mask.sameLines_overwrite source),
    toList_overwrite, mask.lexemes_spell_apply, htokens, List.filter_append,
    List.filter_cons_of_pos hend, List.filter_nil]

end Source

end Mask

section Covers

variable {before : List Char} {lexemes : List Lexeme} {token : Token} {i : Nat}

theorem covers_iff {a b : List Lexeme} {lexeme : Lexeme} (hi : i < byteLength lexeme.text) :
    (token ∈ tokensAfter [] (a ++ lexeme :: b) ∧ token.Covers (byteLength (spell a) + i)) ↔
      lexeme.token? (spell a) = some token := by
  rw [tokensAfter_append, tokensAfter_cons, List.mem_append, List.mem_append, Option.mem_toList,
    List.nil_append]
  constructor
  · rintro ⟨hmem | hmem | hmem, hstart, hstop⟩
    · have := bounds_of_mem_tokensAfter hmem
      rw [byteLength_nil] at this
      omega
    · exact hmem
    · have := bounds_of_mem_tokensAfter hmem
      rw [byteLength_append] at this
      omega
  · intro h
    refine ⟨.inr (.inl h), ?_⟩
    obtain ⟨kind, value, -, rfl⟩ := token?_eq_some_iff.1 h
    simp only [Token.Covers, Span.after]
    omega

theorem covers_tokenize_iff {source : String} {a b : List Lexeme} {lexeme : Lexeme}
    (hsplit : ImagingLexer.lexemes source.toList = a ++ lexeme :: b)
    (hi : i < byteLength lexeme.text) :
    (token ∈ (tokenize source).value.tokens.toList ∧
      token.Covers (byteLength (spell a) + i)) ↔ lexeme.token? (spell a) = some token := by
  rw [mem_tokens_tokenize_iff, hsplit, ← @covers_iff token i a b lexeme hi]
  constructor
  · rintro ⟨hmem | rfl, hcovers⟩
    · exact ⟨hmem, hcovers⟩
    · exact absurd hcovers.2 (Nat.not_lt.2 hcovers.1)
  · rintro ⟨hmem, hcovers⟩
    exact ⟨.inl hmem, hcovers⟩

end Covers

end ImagingLexer
