import ImagingLexer.Proofs.Locations

/-! # Breaks of a source

A line index keeps the offsets of the line feeds, and the length of a source that does not end in
one. The length can therefore be told from the index, and so can the line feeds: two sources have
one index exactly if they have one length and the same line feeds. The breaks alone do not tell
whether the last of them is a line feed.
-/

namespace ImagingLexer

section Last

variable {text : List Char}

theorem getLast?_utf8EncodeChar_eq_lineFeed_iff {c : Char} :
    (String.utf8EncodeChar c).getLast? = some 0x0A ↔ c = '\n' := by
  constructor
  · exact fun h => lineFeed_mem_utf8EncodeChar_iff.1 (List.mem_of_getLast? h)
  · rintro rfl
    rfl

theorem getLast?_bytes_eq_lineFeed_iff :
    (bytes text).getLast? = some 0x0A ↔ text.getLast? = some '\n' := by
  rcases List.eq_nil_or_concat text with rfl | ⟨init, c, rfl⟩
  · simp
  · have hbytes : String.utf8EncodeChar c ≠ [] := by
      rw [← List.length_pos_iff, String.length_utf8EncodeChar]
      exact c.utf8Size_pos
    rw [List.concat_eq_append, bytes_append, bytes_cons, bytes_nil, List.append_nil,
      List.getLast?_append_of_ne_nil _ hbytes, getLast?_utf8EncodeChar_eq_lineFeed_iff,
      List.getLast?_concat, Option.some.injEq]

end Last

namespace LineIndex

variable {text a b : List Char}

/-- What an index keeps beside the line feeds of its text. -/
def boundary (text : List Char) : List Nat :=
  if text.getLast? = some '\n' then [] else [byteLength text]

theorem breaks_ofText (text : List Char) :
    (ofText text).breaks.toList = newlineOffsets 0 text ++ boundary text := by
  simp only [ofText, boundary]
  split <;> simp

theorem lineCount_ofText (text : List Char) :
    (ofText text).lineCount = (ofText text).newlines + (boundary text).length := by
  rw [lineCount, ← Array.length_toList, breaks_ofText, List.length_append, newlines_ofText]

theorem boundary_cases (text : List Char) :
    (boundary text = [] ∧ ∃ o ∈ newlineOffsets 0 text, o + 1 = byteLength text) ∨
      boundary text = [byteLength text] := by
  by_cases h : text.getLast? = some '\n'
  · exact .inl ⟨if_pos h, getLast?_eq_lineFeed_iff.1 h⟩
  · exact .inr (if_neg h)

theorem ofText_eq_iff :
    ofText a = ofText b ↔
      byteLength a = byteLength b ∧ newlineOffsets 0 a = newlineOffsets 0 b := by
  constructor
  · intro h
    have hnewlines : newlineOffsets 0 a = newlineOffsets 0 b := by
      rw [← take_breaks_ofText, h, take_breaks_ofText]
    have hbreaks : (ofText a).breaks.toList = (ofText b).breaks.toList := by rw [h]
    rw [breaks_ofText, breaks_ofText, hnewlines] at hbreaks
    have hboundary := List.append_cancel_left hbreaks
    refine ⟨?_, hnewlines⟩
    rcases boundary_cases a with ⟨ha, o, ho, hlast⟩ | ha <;>
      rcases boundary_cases b with ⟨hb, o', ho', hlast'⟩ | hb <;>
      rw [ha, hb] at hboundary
    · have hlt := bounds_of_mem_newlineOffsets (hnewlines ▸ ho)
      have hlt' := bounds_of_mem_newlineOffsets (hnewlines ▸ ho')
      omega
    · cases hboundary
    · cases hboundary
    · exact List.singleton_inj.1 hboundary
  · exact fun ⟨hlength, hnewlines⟩ => ofText_congr hlength hnewlines

theorem pairwise_breaks_ofText (text : List Char) :
    (ofText text).breaks.toList.Pairwise (· < ·) := by
  rw [breaks_ofText]
  rcases boundary_cases text with ⟨hboundary, -⟩ | hboundary <;> rw [hboundary]
  · rw [List.append_nil]
    exact pairwise_newlineOffsets 0 text
  · rw [List.pairwise_append]
    refine ⟨pairwise_newlineOffsets 0 text, List.pairwise_singleton .., fun o ho last hlast => ?_⟩
    obtain rfl := List.mem_singleton.1 hlast
    have := bounds_of_mem_newlineOffsets ho
    omega

theorem breaks_ofText_ne_nil (text : List Char) : (ofText text).breaks.toList ≠ [] := by
  rw [breaks_ofText]
  rcases boundary_cases text with ⟨-, o, ho, -⟩ | hboundary
  · exact List.append_ne_nil_of_left_ne_nil (List.ne_nil_of_mem ho) _
  · exact List.append_ne_nil_of_right_ne_nil _ (hboundary ▸ List.cons_ne_nil _ _)

/-- A line feed at the end takes the place of the entry for the end. -/
theorem breaks_ofText_concat (h : text.getLast? ≠ some '\n') :
    (ofText (text ++ ['\n'])).breaks = (ofText text).breaks := by
  rw [← Array.toList_inj, breaks_ofText, breaks_ofText, newlineOffsets_append]
  simp [boundary, h, newlineOffsets]

end LineIndex

theorem newlineOffsets_eq_iff {a b : List Char} :
    newlineOffsets 0 a = newlineOffsets 0 b ↔
      ∀ offset : Nat, (bytes a)[offset]? = some 0x0A ↔ (bytes b)[offset]? = some 0x0A := by
  constructor
  · intro h offset
    rw [← mem_newlineOffsets_iff, h, mem_newlineOffsets_iff]
  · intro h
    apply (pairwise_newlineOffsets 0 a).eq_of_mem_iff (pairwise_newlineOffsets 0 b)
    intro offset
    rw [mem_newlineOffsets_iff, h, mem_newlineOffsets_iff]

/-- The breaks are the line feeds, with the length after them where no line feed ends the source;
the index determines both, and the breaks without their count do not. -/
theorem lineIndex_ofSource :
    (∀ source : String,
      (LineIndex.ofSource source).breaks.toList =
        lineFeedsBelow (utf8 source) (utf8 source).length ++
          (if (utf8 source).getLast? = some 0x0A then [] else [(utf8 source).length]) ∧
      (LineIndex.ofSource source).breaks.toList.Pairwise (· < ·) ∧
      (LineIndex.ofSource source).breaks.toList ≠ []) ∧
    (∀ a b : String,
      LineIndex.ofSource a = LineIndex.ofSource b ↔
        (utf8 a).length = (utf8 b).length ∧
        ∀ offset : Nat, (utf8 a)[offset]? = some 0x0A ↔ (utf8 b)[offset]? = some 0x0A) ∧
    ∀ source : String, (utf8 source).getLast? ≠ some 0x0A →
      (LineIndex.ofSource (source ++ "\n")).breaks = (LineIndex.ofSource source).breaks ∧
      (LineIndex.ofSource (source ++ "\n")).lineCount = (LineIndex.ofSource source).lineCount ∧
      LineIndex.ofSource (source ++ "\n") ≠ LineIndex.ofSource source := by
  refine ⟨fun source => ⟨?_, ?_, ?_⟩, fun a b => ?_, fun source h => ?_⟩
  · simp only [LineIndex.ofSource, LineIndex.breaks_ofText, LineIndex.boundary, utf8_eq_bytes,
      length_bytes, getLast?_bytes_eq_lineFeed_iff,
      newlineOffsets_eq_lineFeedsBelow (Nat.le_refl (byteLength source.toList))]
  · exact LineIndex.pairwise_breaks_ofText source.toList
  · exact LineIndex.breaks_ofText_ne_nil source.toList
  · rw [LineIndex.ofSource, LineIndex.ofSource, LineIndex.ofText_eq_iff, newlineOffsets_eq_iff,
      length_utf8, length_utf8, utf8_eq_bytes, utf8_eq_bytes]
  · rw [utf8_eq_bytes, ne_eq, getLast?_bytes_eq_lineFeed_iff] at h
    have hconcat : (source ++ "\n").toList = source.toList ++ ['\n'] := String.toList_append
    have hbreaks : (LineIndex.ofSource (source ++ "\n")).breaks =
        (LineIndex.ofSource source).breaks := by
      rw [LineIndex.ofSource, hconcat]
      exact LineIndex.breaks_ofText_concat h
    refine ⟨hbreaks, congrArg Array.size hbreaks, fun heq => ?_⟩
    have hlength := (LineIndex.ofText_eq_iff.1 heq).1
    rw [hconcat, byteLength_append, byteLength_cons] at hlength
    have hpos := '\n'.utf8Size_pos
    omega

theorem lineIndex_ofSource_unterminated :
    (utf8 "ab\ncd").getLast? ≠ some 0x0A ∧
    (LineIndex.ofSource "ab\ncd\n").breaks = (LineIndex.ofSource "ab\ncd").breaks ∧
    (LineIndex.ofSource "ab\ncd\n").lineCount = (LineIndex.ofSource "ab\ncd").lineCount ∧
    LineIndex.ofSource "ab\ncd\n" ≠ LineIndex.ofSource "ab\ncd" := by
  have h : (utf8 "ab\ncd").getLast? ≠ some 0x0A := by decide +kernel
  exact ⟨h, lineIndex_ofSource.2.2 "ab\ncd" h⟩

end ImagingLexer
