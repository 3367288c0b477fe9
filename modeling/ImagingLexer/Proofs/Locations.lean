import ImagingLexer.Proofs.Scan
import Mathlib.Data.List.Sort

/-! # Locations by counting

The location of an offset is defined by the bytes below it: the line feeds among them are
counted, and the column begins after the last of them. The line index gives this location to
every offset, within a character or past the end of the source too, and never reads outside
its breaks or subtracts below zero.
-/

namespace ImagingLexer

open Lexeme

def lineFeedsBelow (source : List UInt8) (offset : Nat) : List Nat :=
  (List.range offset).filter fun o => source[o]? = some 0x0A

/-- The location of an offset, counted from the line feeds below it. -/
def Location.counted (source : List UInt8) (offset : Nat) : Location :=
  ⟨(lineFeedsBelow source offset).length,
    match (lineFeedsBelow source offset).max? with
    | none => offset
    | some o => offset - (o + 1)⟩

section LineFeedsBelow

variable {source : List UInt8} {offset o : Nat}

theorem mem_lineFeedsBelow_iff :
    o ∈ lineFeedsBelow source offset ↔ o < offset ∧ source[o]? = some 0x0A := by
  simp [lineFeedsBelow]

theorem pairwise_lineFeedsBelow (source : List UInt8) (offset : Nat) :
    (lineFeedsBelow source offset).Pairwise (· < ·) :=
  List.pairwise_lt_range.filter _

theorem exists_lineFeedsBelow_add (source : List UInt8) (offset n : Nat) :
    ∃ above, lineFeedsBelow source (offset + n) = lineFeedsBelow source offset ++ above ∧
      ∀ o ∈ above, offset ≤ o := by
  refine ⟨((List.range n).map (offset + ·)).filter fun o => source[o]? = some 0x0A, ?_, ?_⟩
  · simp only [lineFeedsBelow, List.range_add, List.filter_append]
  · intro o hmem
    obtain ⟨i, -, rfl⟩ := List.mem_map.1 (List.mem_filter.1 hmem).1
    exact Nat.le_add_right offset i

theorem max?_lineFeedsBelow (source : List UInt8) (offset : Nat) :
    (lineFeedsBelow source offset).max? = (lineFeedsBelow source offset).getLast? := by
  have hpairwise := pairwise_lineFeedsBelow source offset
  rcases List.eq_nil_or_concat (lineFeedsBelow source offset) with hnil | ⟨init, last, hlast⟩
  · rw [hnil]
    rfl
  · rw [hlast, List.concat_eq_append] at hpairwise ⊢
    rw [List.getLast?_concat, List.max?_eq_some_iff]
    refine ⟨List.mem_concat_self, fun o hmem => ?_⟩
    rcases List.mem_append.1 hmem with hmem | hmem
    · exact Nat.le_of_lt ((List.pairwise_append.1 hpairwise).2.2 o hmem last (by simp))
    · exact Nat.le_of_eq (List.mem_singleton.1 hmem)

theorem counted_eq (source : List UInt8) (offset : Nat) :
    Location.counted source offset =
      ⟨(lineFeedsBelow source offset).length,
        offset - ((lineFeedsBelow source offset).getLast?.map (· + 1)).getD 0⟩ := by
  rw [Location.counted, max?_lineFeedsBelow]
  cases (lineFeedsBelow source offset).getLast? <;> rfl

end LineFeedsBelow

section NewlineOffsets

variable {text : List Char}

theorem pairwise_newlineOffsets (offset : Nat) (text : List Char) :
    (newlineOffsets offset text).Pairwise (· < ·) := by
  induction text generalizing offset with
  | nil => exact .nil
  | cons c text ih =>
    have hpos := c.utf8Size_pos
    simp only [newlineOffsets]
    split
    · refine .cons (fun o hmem => ?_) (ih _)
      have := bounds_of_mem_newlineOffsets hmem
      omega
    · exact ih _

theorem newlineOffsets_eq_lineFeedsBelow {limit : Nat} (h : byteLength text ≤ limit) :
    newlineOffsets 0 text = lineFeedsBelow (bytes text) limit := by
  apply (pairwise_newlineOffsets 0 text).eq_of_mem_iff (pairwise_lineFeedsBelow _ _)
  intro o
  rw [mem_lineFeedsBelow_iff, mem_newlineOffsets_iff, iff_and_self]
  intro hlineFeed
  have := bounds_of_mem_newlineOffsets (mem_newlineOffsets_iff.2 hlineFeed)
  omega

theorem exists_newlineOffsets_eq_append (text : List Char) (offset : Nat) :
    ∃ above, newlineOffsets 0 text = lineFeedsBelow (bytes text) offset ++ above ∧
      (∀ o ∈ lineFeedsBelow (bytes text) offset, o < offset) ∧ ∀ o ∈ above, offset ≤ o := by
  rw [newlineOffsets_eq_lineFeedsBelow (Nat.le_add_left (byteLength text) offset)]
  obtain ⟨above, hsplit, habove⟩ := exists_lineFeedsBelow_add (bytes text) offset (byteLength text)
  exact ⟨above, hsplit, fun o hmem => (mem_lineFeedsBelow_iff.1 hmem).1, habove⟩

end NewlineOffsets

namespace LineIndex

theorem location_ofText_eq_counted (text : List Char) (offset : Nat) :
    (ofText text).location offset = .counted (bytes text) offset := by
  obtain ⟨above, hsplit, hbelow, habove⟩ := exists_newlineOffsets_eq_append text offset
  rw [counted_eq, location_ofText_of_split hsplit hbelow habove]

theorem exists_break_of_line_eq_succ {text : List Char} {offset line : Nat}
    (h : (ofText text).line offset = line + 1) :
    ∃ o, (ofText text).breaks[line]? = some o ∧ o + 1 ≤ offset := by
  obtain ⟨above, hsplit, hbelow, habove⟩ := exists_newlineOffsets_eq_append text offset
  rw [line_ofText_of_split hsplit hbelow habove] at h
  have hline : line < (lineFeedsBelow (bytes text) offset).length := by omega
  refine ⟨(lineFeedsBelow (bytes text) offset)[line], ?_, hbelow _ (List.getElem_mem hline)⟩
  rw [getElem?_breaks_ofText, hsplit, List.getElem?_append_left hline,
    List.getElem?_eq_getElem hline]
  rw [hsplit, List.length_append]
  omega

theorem lineStart?_line_ofText (text : List Char) (offset : Nat) :
    ∃ start ≤ offset, (ofText text).lineStart? ((ofText text).line offset) = some start ∧
      ((ofText text).location offset).column = offset - start := by
  rw [location_eq]
  cases hline : (ofText text).line offset with
  | zero => exact ⟨0, Nat.zero_le offset, rfl, rfl⟩
  | succ line =>
    obtain ⟨o, hbreak, hle⟩ := exists_break_of_line_eq_succ hline
    have hnewline : line < (ofText text).newlines := by
      have := (ofText text).line_le offset
      omega
    have hstart : (ofText text).lineStart? (line + 1) = some (o + 1) := by
      rw [lineStart?_succ_ofText, ← getElem?_breaks_ofText hnewline, hbreak]
      rfl
    exact ⟨o + 1, hle, hstart, by rw [hstart]; rfl⟩

theorem location_ofText_injective (text : List Char) :
    Function.Injective (ofText text).location := by
  intro a b h
  obtain ⟨start, hle, hstart, hcolumn⟩ := lineStart?_line_ofText text a
  obtain ⟨start', hle', hstart', hcolumn'⟩ := lineStart?_line_ofText text b
  have hline := congrArg Location.line h
  rw [line_location, line_location] at hline
  rw [hline, hstart'] at hstart
  rw [h, hcolumn'] at hcolumn
  cases hstart
  omega

end LineIndex

theorem location_span_of_mem_tokenize {source : String} {token : Token}
    (h : token ∈ (tokenize source).value.tokens.toList) :
    token.span.location = (LineIndex.ofSource source).location token.span.start := by
  rcases mem_tokens_tokenize_iff.1 h with h | rfl
  · obtain ⟨a, lexeme, b, kind, value, hsplit, -, rfl⟩ := exists_of_mem_tokensAfter h
    rw [LineIndex.ofSource, eq_spell_of_lexemes_eq hsplit, List.append_assoc]
    exact (LineIndex.location_ofText_append _ _).symm
  · have hend := LineIndex.location_ofText_append source.toList []
    rw [List.append_nil] at hend
    exact hend.symm

theorem location_of_diagnostic? {token : Token} {diagnostic : Diagnostic}
    (h : token.diagnostic? = some diagnostic) : diagnostic.location = token.span.location := by
  obtain ⟨fault, -, rfl⟩ := Option.map_eq_some_iff.1 h
  rfl

/-- Every offset is located by counting, and with it every token and every diagnostic. -/
theorem location_eq_counted (source : String) :
    (LineIndex.ofSource source).newlines ≤ (LineIndex.ofSource source).breaks.size ∧
    (∀ offset : Nat,
      (LineIndex.ofSource source).location offset = .counted (utf8 source) offset ∧
      ∀ line, (LineIndex.ofSource source).line offset = line + 1 →
        ∃ o, (LineIndex.ofSource source).breaks[line]? = some o ∧ o + 1 ≤ offset) ∧
    ∀ token ∈ (tokenize source).value.tokens.toList,
      token.span.location = .counted (utf8 source) token.span.start ∧
      ∀ diagnostic, token.diagnostic? = some diagnostic →
        diagnostic.location = .counted (utf8 source) token.span.start := by
  have hlocation : ∀ offset : Nat,
      (LineIndex.ofSource source).location offset = .counted (utf8 source) offset := by
    intro offset
    rw [utf8_eq_bytes]
    exact LineIndex.location_ofText_eq_counted source.toList offset
  refine ⟨(LineIndex.ofSource source).newlines_le, fun offset => ?_, fun token hmem => ?_⟩
  · exact ⟨hlocation offset, fun line hline => LineIndex.exists_break_of_line_eq_succ hline⟩
  · have htoken := (location_span_of_mem_tokenize hmem).trans (hlocation _)
    exact ⟨htoken, fun diagnostic h => (location_of_diagnostic? h).trans htoken⟩

theorem location_eq_counted_stray :
    (LineIndex.ofSource "x\n\n @y").line 4 = 1 + 1 ∧
    (∃ o, (LineIndex.ofSource "x\n\n @y").breaks[1]? = some o ∧ o + 1 ≤ 4) ∧
    ⟨.error, "@", ⟨4, 5, 2, 1⟩, .error .illegalCharacter⟩ ∈
      (tokenize "x\n\n @y").value.tokens.toList ∧
    (⟨2, 1⟩ : Location) = .counted (utf8 "x\n\n @y") 4 := by
  obtain ⟨-, hoffset, htoken⟩ := location_eq_counted "x\n\n @y"
  have hline : (LineIndex.ofSource "x\n\n @y").line 4 = 1 + 1 := by decide +kernel
  have htoken? : (tokenize "x\n\n @y").value.tokens.toList[1]? =
      some ⟨.error, "@", ⟨4, 5, 2, 1⟩, .error .illegalCharacter⟩ := by decide +kernel
  have hmem := List.mem_of_getElem? htoken?
  refine ⟨hline, (hoffset 4).2 1 hline, hmem, ?_⟩
  exact (htoken _ hmem).2 ⟨.illegalCharacter, "@", ⟨2, 1⟩⟩ rfl

end ImagingLexer
