import ImagingLexer.Proofs.Bytes
import ImagingLexer.Proofs.Scan
import Mathlib.Data.List.Chain

/-! # Tokens tile the source

The tokens of a source lie side by side in it, and between them there are only blanks and
comments. Taken in order, the tokens and the stretches between them spell the source byte
for byte, whatever is broken in it.
-/

namespace ImagingLexer

open Lexeme

def slice (source : List UInt8) (start stop : Nat) : List UInt8 := (source.take stop).drop start

/-- A stretch of blanks and comments. Each comment ends at a line feed of the stretch, or
where the stretch ends if that is the end of the source. -/
inductive Gap (last : Bool) : List UInt8 → Prop
  | nil : Gap last []
  | blank {byte : UInt8} {rest : List UInt8} : byte ∈ [0x20, 0x09, 0x0D, 0x0A] →
      Gap last rest → Gap last (byte :: rest)
  | comment {body rest : List UInt8} : 0x0A ∉ body → Gap last (0x0A :: rest) →
      Gap last (0x23 :: body ++ 0x0A :: rest)
  | openComment {body : List UInt8} : last = true → 0x0A ∉ body → Gap last (0x23 :: body)

/-- Each token with the stretch of the source before it, the first stretch from `offset`. -/
def withGaps (source : List UInt8) (offset : Nat) : List Token → List (List UInt8 × Token)
  | [] => []
  | token :: tokens =>
    (slice source offset token.span.start, token) :: withGaps source token.span.stop tokens

/-- The tokens up to `last` cover the source, from its first byte to its end. -/
structure Tiling (source : List UInt8) (tokens : List Token) (last : Token) : Prop where
  kind_last : last.kind = .eof
  text_last : last.text = ""
  start_last : last.span.start = source.length
  stop_last : last.span.stop = source.length
  kind_ne_eof : ∀ token ∈ tokens, token.kind ≠ .eof
  start_lt_stop : ∀ token ∈ tokens, token.span.start < token.span.stop
  stop_le : ∀ token ∈ tokens, token.span.stop ≤ source.length
  utf8_text : ∀ token ∈ tokens,
    utf8 token.text = slice source token.span.start token.span.stop
  ordered : (tokens ++ [last]).IsChain fun a b => a.span.stop ≤ b.span.start
  gap : ∀ entry ∈ withGaps source 0 (tokens ++ [last]),
    Gap (entry.2.kind = .eof) entry.1
  interleaved : (withGaps source 0 (tokens ++ [last])).flatMap
    (fun entry => entry.1 ++ utf8 entry.2.text) = source

section Slice

theorem slice_bytes (before text rest : List Char) :
    slice (bytes (before ++ text ++ rest)) (byteLength before)
      (byteLength before + byteLength text) = bytes text := by
  rw [slice, bytes_append, List.take_left' (by simp), bytes_append, List.drop_left' (by simp)]

theorem slice_append_drop {source : List UInt8} {start stop : Nat} (h : start ≤ stop) :
    slice source start stop ++ source.drop stop = source.drop start := by
  rw [slice, List.drop_take]
  conv_rhs => rw [← List.take_append_drop (stop - start) (source.drop start)]
  rw [List.drop_drop, Nat.add_sub_cancel' h]

end Slice

section Gap

/-- Skipped lexemes are a gap, unless a line feed follows that a comment needs. -/
theorem gap_spell {skipped : List Lexeme} {rest : List Char}
    (hskipped : ∀ lexeme ∈ skipped, lexeme.sort? = none) (hseparated : Separated skipped rest)
    (hrest : rest.head? ≠ some '\n') : Gap rest.isEmpty (bytes (spell skipped)) := by
  induction skipped with
  | nil => exact .nil
  | cons lexeme skipped ih =>
    obtain ⟨hlexeme, hmore⟩ := List.forall_mem_cons.1 hskipped
    obtain ⟨hparts, hstop, hseparated⟩ := hseparated
    have hgap := ih hmore hseparated
    rcases sort?_eq_none_iff.1 hlexeme with ⟨c, rfl⟩ | ⟨body, rfl⟩
    · rcases isBlank_iff.1 hparts with rfl | rfl | rfl | rfl <;> exact .blank (by decide) hgap
    · have hbody : 10 ∉ bytes body := by
        rw [lineFeed_mem_bytes_iff]
        exact fun h => hparts '\n' h rfl
      have htext : ∀ more, bytes (spell (comment body :: more)) =
          0x23 :: bytes body ++ bytes (spell more) := fun more => by
        rw [spell_cons, text, List.cons_append, bytes_cons, bytes_append]
        rfl
      rw [htext]
      cases skipped with
      | nil =>
        cases rest with
        | nil => simpa using Gap.openComment rfl hbody
        | cons c rest => exact absurd (hstop c rfl ▸ rfl) hrest
      | cons next skipped =>
        -- The comment stops before a line feed, and only a blank begins with one.
        obtain ⟨c, rfl⟩ | ⟨more, rfl⟩ := sort?_eq_none_iff.1 (hmore next List.mem_cons_self)
        · obtain rfl : c = '\n' := hstop c rfl
          exact .comment hbody hgap
        · exact absurd (hstop '#' rfl) (by decide)

theorem head?_ne_lineFeed {lexeme : Lexeme} {sort : Kind × Value} (h : lexeme.WellFormed)
    (hsort : lexeme.sort? = some sort) (rest : List Char) :
    (lexeme.text ++ rest).head? ≠ some '\n' := by
  have hclean := lineFeed_not_mem_of_sort? h hsort
  obtain ⟨c, text, htext⟩ := List.exists_cons_of_ne_nil h.text_ne_nil
  rw [htext] at hclean ⊢
  rintro ⟨⟩
  exact hclean List.mem_cons_self

end Gap

inductive Tiles (source : List UInt8) : Nat → List Token → Prop
  | last {offset : Nat} {token : Token} : token.kind = .eof → token.text = "" →
      offset ≤ token.span.start → token.span.start = source.length →
      token.span.stop = source.length → Gap true (slice source offset token.span.start) →
      Tiles source offset [token]
  | token {offset : Nat} {token : Token} {tokens : List Token} : token.kind ≠ .eof →
      offset ≤ token.span.start → token.span.start < token.span.stop →
      token.span.stop ≤ source.length →
      utf8 token.text = slice source token.span.start token.span.stop →
      Gap false (slice source offset token.span.start) →
      Tiles source token.span.stop tokens → Tiles source offset (token :: tokens)

namespace Tiles

variable {source : List UInt8} {offset : Nat} {tokens : List Token} {last : Token}

theorem of_cons {token : Token} (h : Tiles source offset (token :: tokens))
    (hmore : tokens ≠ []) :
    (token.kind ≠ .eof ∧ token.span.start < token.span.stop ∧
      token.span.stop ≤ source.length ∧
      utf8 token.text = slice source token.span.start token.span.stop) ∧
      Tiles source token.span.stop tokens := by
  cases h with
  | last => exact absurd rfl hmore
  | token hkind _ hlt hle htext _ h => exact ⟨⟨hkind, hlt, hle, htext⟩, h⟩

theorem covers (h : Tiles source offset (tokens ++ [last])) :
    ∀ token ∈ tokens, token.kind ≠ .eof ∧ token.span.start < token.span.stop ∧
      token.span.stop ≤ source.length ∧
      utf8 token.text = slice source token.span.start token.span.stop := by
  induction tokens generalizing offset with
  | nil => simp
  | cons token tokens ih =>
    obtain ⟨htoken, h⟩ := h.of_cons (by simp)
    exact List.forall_mem_cons.2 ⟨htoken, ih h⟩

theorem ends (h : Tiles source offset (tokens ++ [last])) :
    last.kind = .eof ∧ last.text = "" ∧ last.span.start = source.length ∧
      last.span.stop = source.length := by
  induction tokens generalizing offset with
  | nil =>
    cases h with
    | last hkind htext _ hstart hstop _ => exact ⟨hkind, htext, hstart, hstop⟩
    | token _ _ _ _ _ _ h => cases h
  | cons token tokens ih =>
    obtain ⟨-, h⟩ := h.of_cons (by simp)
    exact ih h

theorem le_start (h : Tiles source offset tokens) :
    ∀ token ∈ tokens.head?, offset ≤ token.span.start := by
  cases h <;> simpa

theorem ordered (h : Tiles source offset tokens) :
    tokens.IsChain fun a b => a.span.stop ≤ b.span.start := by
  induction h with
  | last => exact .singleton _
  | token _ _ _ _ _ _ h ih => exact ih.cons h.le_start

theorem gap (h : Tiles source offset tokens) :
    ∀ entry ∈ withGaps source offset tokens, Gap (entry.2.kind = .eof) entry.1 := by
  induction h with
  | last hkind _ _ _ _ hgap => simpa [withGaps, hkind] using hgap
  | token hkind _ _ _ _ hgap _ ih =>
    rw [withGaps, List.forall_mem_cons]
    exact ⟨by simpa [hkind] using hgap, ih⟩

theorem interleaved (h : Tiles source offset tokens) :
    (withGaps source offset tokens).flatMap (fun entry => entry.1 ++ utf8 entry.2.text) =
      source.drop offset := by
  induction h with
  | @last offset token _ htext hle hstart _ _ =>
    have hempty : utf8 token.text = [] := by
      rw [htext]
      rfl
    have hdrop := @slice_append_drop source offset token.span.start hle
    rw [hstart, List.drop_length] at hdrop
    rw [withGaps, withGaps, List.flatMap_cons, List.flatMap_nil, hempty, hstart, List.append_nil]
    exact hdrop
  | @token offset token tokens _ hle hlt _ htext _ _ ih =>
    rw [withGaps, List.flatMap_cons, ih, htext, List.append_assoc,
      slice_append_drop (Nat.le_of_lt hlt), slice_append_drop hle]

theorem tiling (h : Tiles source 0 (tokens ++ [last])) : Tiling source tokens last where
  kind_last := h.ends.1
  text_last := h.ends.2.1
  start_last := h.ends.2.2.1
  stop_last := h.ends.2.2.2
  kind_ne_eof token hmem := (h.covers token hmem).1
  start_lt_stop token hmem := (h.covers token hmem).2.1
  stop_le token hmem := (h.covers token hmem).2.2.1
  utf8_text token hmem := (h.covers token hmem).2.2.2
  ordered := h.ordered
  gap := h.gap
  interleaved := h.interleaved

end Tiles

theorem tiles_tokensAfter {before : List Char} {pending lexemes : List Lexeme}
    (hskipped : ∀ lexeme ∈ pending, lexeme.sort? = none)
    (hseparated : Separated (pending ++ lexemes) []) :
    Tiles (bytes (before ++ spell (pending ++ lexemes))) (byteLength before)
      (tokensAfter (before ++ spell pending) lexemes ++
        [endToken (before ++ spell (pending ++ lexemes))]) := by
  induction lexemes generalizing before pending with
  | nil =>
    rw [List.append_nil] at hseparated ⊢
    have hgap := gap_spell hskipped hseparated (by simp)
    have hslice := slice_bytes before (spell pending) []
    rw [List.append_nil, ← byteLength_append] at hslice
    refine .last rfl rfl ?_ ?_ ?_ ?_
    · simp [endToken, Span.after]
    · simp [endToken, Span.after]
    · simp [endToken, Span.after]
    · show Gap true (slice _ _ (byteLength (before ++ spell pending)))
      rw [hslice]
      exact hgap
  | cons lexeme lexemes ih =>
    obtain ⟨hpending, hlexeme⟩ := separated_append.1 hseparated
    cases hsort : lexeme.sort? with
    | none =>
      have hmore : ∀ skipped ∈ pending ++ [lexeme], skipped.sort? = none := by
        simpa [or_imp, forall_and, hsort] using hskipped
      have htiles := @ih before (pending ++ [lexeme]) hmore (by simpa using hseparated)
      simpa [Lexeme.token?, hsort] using htiles
    | some sort =>
      have hwhole : before ++ spell (pending ++ lexeme :: lexemes) =
          before ++ spell pending ++ lexeme.text ++ spell lexemes := by simp
      have hnonempty := byteLength_eq_zero_iff.not.2 hlexeme.1.text_ne_nil
      rw [List.append_nil, spell_cons] at hpending
      have hgap := gap_spell hskipped hpending (head?_ne_lineFeed hlexeme.1 hsort _)
      have hbefore := slice_bytes before (spell pending) (lexeme.text ++ spell lexemes)
      rw [← byteLength_append, ← List.append_assoc] at hbefore
      have htiles := @ih (before ++ spell pending ++ lexeme.text) [] (by simp) hlexeme.2.2
      rw [List.nil_append, spell_nil, List.append_nil, byteLength_append] at htiles
      rw [hwhole, tokensAfter_cons, Lexeme.token?, hsort, Option.map_some, Option.toList_some,
        List.singleton_append, List.cons_append]
      refine .token (kind_ne_eof hsort) ?_ ?_ ?_ ?_ ?_ htiles
      · simp [Span.after]
      · simp only [Span.after]
        omega
      · simp only [Span.after, length_bytes, byteLength_append]
        omega
      · rw [utf8_ofList]
        exact (slice_bytes _ _ _).symm
      · show Gap false (slice _ _ (byteLength (before ++ spell pending)))
        have hmore : (lexeme.text ++ spell lexemes).isEmpty = false := by
          rw [List.isEmpty_eq_false_iff]
          exact List.append_ne_nil_of_left_ne_nil hlexeme.1.text_ne_nil _
        rw [hbefore, ← hmore]
        exact hgap

theorem tiling_tokenize (source : String) :
    ∃ tokens last, (tokenize source).value.tokens.toList = tokens ++ [last] ∧
      Tiling (utf8 source) tokens last := by
  refine ⟨_, _, tokens_tokenize source, ?_⟩
  have htiles := @tiles_tokensAfter [] [] (lexemes source.toList) (by simp)
    (separated_lexemes source.toList)
  rw [utf8_eq_bytes]
  apply Tiles.tiling
  simpa using htiles

end ImagingLexer
