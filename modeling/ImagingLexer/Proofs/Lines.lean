import ImagingLexer.Proofs.Breaks
import Mathlib.Order.Bounds.Defs

/-! # Offsets and locations

Locations grow with their offsets, and the offset that a location stands for is found again by
adding its column to where its line begins. Everything follows from one equivalence: a line
begins at or below an offset exactly if it is not after the line of the offset.
-/

namespace ImagingLexer

namespace LineIndex

/-- Offsets go to locations and back, over `k` line feeds. -/
structure Inverts (index : LineIndex) (k : Nat) : Prop where
  column_le : ∀ offset : Nat, (index.location offset).column ≤ offset
  lineStart_line : ∀ offset : Nat,
    index.lineStart? (index.location offset).line =
      some (offset - (index.location offset).column)
  location_lt : ∀ a b : Nat, a < b → compare (index.location a) (index.location b) = .lt
  isSome_lineStart : ∀ line : Nat, (index.lineStart? line).isSome ↔ line ≤ k
  isLeast_lineStart : ∀ line start : Nat, index.lineStart? line = some start →
    IsLeast {offset | index.line offset = line} start
  location_add : ∀ line start column : Nat, index.lineStart? line = some start →
    (∀ next, index.lineStart? (line + 1) = some next → start + column < next) →
    index.location (start + column) = ⟨line, column⟩

theorem isSome_lineStart?_iff {index : LineIndex} {line : Nat} :
    (index.lineStart? line).isSome ↔ line ≤ index.newlines := by
  cases line with
  | zero => simp [lineStart?]
  | succ line =>
    rw [Nat.add_one_le_iff]
    by_cases h : line < index.newlines
    · simp [lineStart?, h]
    · simp [lineStart?, h]

section OfText

variable {text : List Char} {line start next offset a b : Nat}

theorem lineStart?_le_iff (h : (ofText text).lineStart? line = some start) :
    start ≤ offset ↔ line ≤ (ofText text).line offset := by
  cases line with
  | zero =>
    cases h
    simp
  | succ line =>
    rw [lineStart?_succ_ofText] at h
    obtain ⟨o, ho, rfl⟩ := Option.map_eq_some_iff.1 h
    obtain ⟨above, hsplit, hbelow, habove⟩ := exists_newlineOffsets_eq_append text offset
    rw [line_ofText_of_split hsplit hbelow habove]
    rw [hsplit] at ho
    -- The line feed before the line is one of those below the offset, or one of the others.
    rcases Nat.lt_or_ge line (lineFeedsBelow (bytes text) offset).length with hlt | hge
    · rw [List.getElem?_append_left hlt] at ho
      have := hbelow o (List.mem_of_getElem? ho)
      omega
    · rw [List.getElem?_append_right hge] at ho
      have := habove o (List.mem_of_getElem? ho)
      omega

theorem lineStart?_lt_succ (h : (ofText text).lineStart? line = some start)
    (hnext : (ofText text).lineStart? (line + 1) = some next) : start < next := by
  rw [lineStart?_succ_ofText] at hnext
  obtain ⟨o, ho, rfl⟩ := Option.map_eq_some_iff.1 hnext
  cases line with
  | zero =>
    cases h
    exact Nat.succ_pos o
  | succ line =>
    rw [lineStart?_succ_ofText] at h
    obtain ⟨o', ho', rfl⟩ := Option.map_eq_some_iff.1 h
    obtain ⟨hline, rfl⟩ := List.getElem?_eq_some_iff.1 ho
    obtain ⟨hline', rfl⟩ := List.getElem?_eq_some_iff.1 ho'
    have hlt := List.pairwise_iff_getElem.1 (pairwise_newlineOffsets 0 text) line (line + 1)
      hline' hline (Nat.lt_succ_self line)
    exact Nat.succ_lt_succ hlt

theorem line_ofText_eq (h : (ofText text).lineStart? line = some start) (hle : start ≤ offset)
    (hnext : ∀ next, (ofText text).lineStart? (line + 1) = some next → offset < next) :
    (ofText text).line offset = line := by
  have hge := (lineStart?_le_iff h).1 hle
  refine Nat.le_antisymm (Nat.le_of_not_lt fun hlt => ?_) hge
  have hsome : ((ofText text).lineStart? (line + 1)).isSome :=
    isSome_lineStart?_iff.2 (Nat.le_trans hlt ((ofText text).line_le offset))
  obtain ⟨next, hstart⟩ := Option.isSome_iff_exists.1 hsome
  have hle' := (lineStart?_le_iff hstart).2 hlt
  exact absurd (hnext next hstart) (Nat.not_lt_of_le hle')

theorem compare_location_ofText (h : a < b) :
    compare ((ofText text).location a) ((ofText text).location b) = .lt := by
  obtain ⟨start, hle, hstart, hcolumn⟩ := lineStart?_line_ofText text a
  obtain ⟨start', hle', hstart', hcolumn'⟩ := lineStart?_line_ofText text b
  have hline : (ofText text).line a ≤ (ofText text).line b :=
    (lineStart?_le_iff hstart).1 (Nat.le_trans hle (Nat.le_of_lt h))
  rw [Location.compare_eq_lt_iff, line_location, line_location, hcolumn, hcolumn']
  rcases Nat.lt_or_eq_of_le hline with hlt | heq
  · exact .inl hlt
  · rw [heq, hstart'] at hstart
    cases hstart
    exact .inr ⟨heq, by omega⟩

theorem inverts_ofText (text : List Char) : (ofText text).Inverts (text.count '\n') where
  column_le offset := by
    obtain ⟨start, -, -, hcolumn⟩ := lineStart?_line_ofText text offset
    omega
  lineStart_line offset := by
    obtain ⟨start, hle, hstart, hcolumn⟩ := lineStart?_line_ofText text offset
    rw [line_location, hstart, hcolumn, Nat.sub_sub_self hle]
  location_lt _ _ := compare_location_ofText
  isSome_lineStart line := by
    rw [isSome_lineStart?_iff, newlines_ofText, length_newlineOffsets]
  isLeast_lineStart line start h := by
    refine ⟨line_ofText_eq h (Nat.le_refl start) fun next => lineStart?_lt_succ h, ?_⟩
    rintro offset rfl
    exact (lineStart?_le_iff h).2 (Nat.le_refl _)
  location_add line start column h hnext := by
    have hline := line_ofText_eq h (Nat.le_add_right start column) hnext
    rw [location_eq, hline, h, Option.getD_some, Nat.add_sub_cancel_left]

end OfText

theorem lineCount_ofSource (source : String) :
    (ofSource source).lineCount =
      if (utf8 source).getLast? = some 0x0A then (utf8 source).count 0x0A
      else (utf8 source).count 0x0A + 1 := by
  rw [ofSource, lineCount_ofText, newlines_ofText, length_newlineOffsets, boundary, utf8_eq_bytes,
    count_bytes]
  simp only [getLast?_bytes_eq_lineFeed_iff]
  split <;> rfl

end LineIndex

theorem pairwise_location_tokenize (source : String) :
    (tokenize source).value.tokens.toList.Pairwise fun a b =>
      compare a.span.location b.span.location = .lt := by
  refine (pairwise_start_tokenize source).imp_of_mem fun ha hb hlt => ?_
  rw [location_span_of_mem_tokenize ha, location_span_of_mem_tokenize hb]
  exact LineIndex.compare_location_ofText hlt

/-- The token for the end stands on the line after all line feeds, which the line count leaves out
where the last byte is a line feed. -/
theorem line_endToken (source : String) :
    (endToken source.toList).span.line = (utf8 source).count 0x0A := by
  rw [utf8_eq_bytes, count_bytes]
  exact Location.line_after source.toList

/-- Offsets and locations are inverse and in one order, on every source and for its tokens. -/
theorem lines_tokenize (source : String) :
    (LineIndex.ofSource source).Inverts ((utf8 source).count 0x0A) ∧
    ((tokenize source).value.tokens.toList.Pairwise fun a b =>
      compare a.span.location b.span.location = .lt) ∧
    (LineIndex.ofSource source).lineCount =
      (if (utf8 source).getLast? = some 0x0A then (utf8 source).count 0x0A
      else (utf8 source).count 0x0A + 1) ∧
    ∃ tokens last, (tokenize source).value.tokens.toList = tokens ++ [last] ∧ last.kind = .eof ∧
      (last.span.line = (LineIndex.ofSource source).lineCount ↔
        (utf8 source).getLast? = some 0x0A) ∧
      (last.span.line + 1 = (LineIndex.ofSource source).lineCount ↔
        (utf8 source).getLast? ≠ some 0x0A) := by
  refine ⟨?_, pairwise_location_tokenize source, LineIndex.lineCount_ofSource source,
    _, _, tokens_tokenize source, rfl, ?_⟩
  · rw [utf8_eq_bytes, count_bytes]
    exact LineIndex.inverts_ofText source.toList
  · rw [line_endToken, LineIndex.lineCount_ofSource]
    by_cases h : (utf8 source).getLast? = some 0x0A
    · simp [h]
    · simp [h]

theorem lines_tokenize_empty_line :
    IsLeast {offset | (LineIndex.ofSource "a\n\nbc").line offset = 1} 2 ∧
    compare ((LineIndex.ofSource "a\n\nbc").location 1)
      ((LineIndex.ofSource "a\n\nbc").location 2) = .lt ∧
    (LineIndex.ofSource "a\n\nbc").location (2 + 0) = ⟨1, 0⟩ ∧
    (LineIndex.ofSource "a\n\nbc").location (3 + 7) = ⟨2, 7⟩ := by
  obtain ⟨hinverts, -⟩ := lines_tokenize "a\n\nbc"
  have hempty : (LineIndex.ofSource "a\n\nbc").lineStart? 1 = some 2 := by decide +kernel
  have hlast : (LineIndex.ofSource "a\n\nbc").lineStart? 2 = some 3 := by decide +kernel
  have hnone : (LineIndex.ofSource "a\n\nbc").lineStart? 3 = none := by decide +kernel
  refine ⟨hinverts.isLeast_lineStart 1 2 hempty, hinverts.location_lt 1 2 (by decide), ?_, ?_⟩
  · refine hinverts.location_add 1 2 0 hempty fun next hnext => ?_
    rw [hlast] at hnext
    cases hnext
    decide
  · refine hinverts.location_add 2 3 7 hlast fun next hnext => ?_
    rw [hnone] at hnext
    cases hnext

end ImagingLexer
