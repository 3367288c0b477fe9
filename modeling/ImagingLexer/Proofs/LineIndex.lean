import ImagingLexer.LineIndex
import ImagingLexer.Proofs.Bytes
import Mathlib.Data.List.Induction

/-! # Locations of prefixes

The location that a line index gives to the end of a prefix of its text depends on that
prefix only: it is the location that is reached by moving over the prefix one character
at a time. The bisection, the entry for the end of the text and the text after the prefix
all drop out.
-/

namespace ImagingLexer

namespace Location

def advance (location : Location) (c : Char) : Location :=
  if c = '\n' then ⟨location.line + 1, 0⟩
  else ⟨location.line, location.column + c.utf8Size⟩

def after (text : List Char) : Location := text.foldl advance ⟨0, 0⟩

@[simp] theorem after_nil : after [] = ⟨0, 0⟩ := rfl

theorem after_concat (text : List Char) (c : Char) :
    after (text ++ [c]) = (after text).advance c := by
  simp [after]

/-- Where `location` is when its text is put after one that ends at `start`. -/
def shift (start location : Location) : Location :=
  ⟨location.line + start.line,
    if location.line = 0 then location.column + start.column else location.column⟩

/-- Where a line begins, lines are added and columns remain. -/
theorem shift_lineStart (k : Nat) (location : Location) :
    shift ⟨k, 0⟩ location = ⟨location.line + k, location.column⟩ := by
  simp [shift]

theorem advance_shift (start location : Location) (c : Char) :
    (start.shift location).advance c = start.shift (location.advance c) := by
  unfold advance shift
  split
  · simp only [Nat.succ_ne_zero, if_false, Location.mk.injEq, and_true]
    omega
  · simp only [Location.mk.injEq, true_and]
    split <;> omega

theorem foldl_advance (start : Location) (text : List Char) :
    text.foldl advance start = start.shift (after text) := by
  induction text using List.reverseRecOn with
  | nil => simp [shift]
  | append_singleton text c ih =>
    rw [List.foldl_append, ih, after_concat, ← advance_shift]
    rfl

theorem after_append (a b : List Char) : after (a ++ b) = (after a).shift (after b) := by
  rw [← foldl_advance, after, List.foldl_append, ← after]

theorem line_after (text : List Char) : (after text).line = text.count '\n' := by
  induction text using List.reverseRecOn with
  | nil => rfl
  | append_singleton text c ih =>
    rw [after_concat, advance, List.count_append, ← ih]
    split
    next h => simp [h]
    next h => simp [h]

theorem after_concat_lineFeed (text : List Char) :
    after (text ++ ['\n']) = ⟨text.count '\n' + 1, 0⟩ := by
  rw [after_concat, ← line_after]
  rfl

end Location

section NewlineOffsets

variable {offset o : Nat} {text : List Char}

theorem newlineOffsets_append (offset : Nat) (a b : List Char) :
    newlineOffsets offset (a ++ b) =
      newlineOffsets offset a ++ newlineOffsets (offset + byteLength a) b := by
  induction a generalizing offset with
  | nil => simp [newlineOffsets]
  | cons c a ih =>
    simp only [List.cons_append, newlineOffsets, ih, byteLength_cons, Nat.add_assoc]
    split <;> rfl

theorem length_newlineOffsets (offset : Nat) (text : List Char) :
    (newlineOffsets offset text).length = text.count '\n' := by
  induction text generalizing offset with
  | nil => rfl
  | cons c text ih =>
    simp only [newlineOffsets, List.count_cons, beq_iff_eq]
    split <;> simp [ih]

theorem bounds_of_mem_newlineOffsets (h : o ∈ newlineOffsets offset text) :
    offset ≤ o ∧ o < offset + byteLength text := by
  induction text generalizing offset with
  | nil => simp [newlineOffsets] at h
  | cons c text ih =>
    have := c.utf8Size_pos
    simp only [newlineOffsets] at h
    rw [byteLength_cons]
    split at h
    · rcases List.mem_cons.1 h with rfl | h
      · omega
      · have := ih h
        omega
    · have := ih h
      omega

theorem newlineOffsets_of_not_mem (h : '\n' ∉ text) (offset : Nat) :
    newlineOffsets offset text = [] := by
  rw [← List.length_eq_zero_iff, length_newlineOffsets, List.count_eq_zero]
  exact h

theorem getLast?_eq_lineFeed_iff :
    text.getLast? = some '\n' ↔ ∃ o ∈ newlineOffsets 0 text, o + 1 = byteLength text := by
  rcases List.eq_nil_or_concat text with rfl | ⟨init, c, rfl⟩
  · simp [newlineOffsets]
  · have hpos := c.utf8Size_pos
    simp only [List.concat_eq_append, List.getLast?_concat, Option.some.injEq,
      newlineOffsets_append, List.mem_append, byteLength_append, byteLength_cons, byteLength_nil]
    constructor
    · rintro rfl
      exact ⟨byteLength init, .inr (by simp [newlineOffsets]), rfl⟩
    · rintro ⟨o, ho | ho, hlast⟩
      · have := bounds_of_mem_newlineOffsets ho
        omega
      · by_contra hne
        simp [newlineOffsets, hne] at ho

theorem getElem?_utf8EncodeChar_eq_lineFeed_iff {c : Char} {i : Nat} :
    (String.utf8EncodeChar c)[i]? = some 10 ↔ c = '\n' ∧ i = 0 := by
  constructor
  · intro h
    obtain rfl := lineFeed_mem_utf8EncodeChar_iff.1 (List.mem_of_getElem? h)
    obtain ⟨hi, -⟩ := List.getElem?_eq_some_iff.1 h
    exact ⟨rfl, Nat.lt_one_iff.1 hi⟩
  · rintro ⟨rfl, rfl⟩
    rfl

theorem mem_newlineOffsets_iff :
    o ∈ newlineOffsets 0 text ↔ (bytes text)[o]? = some 10 := by
  induction text using List.reverseRecOn with
  | nil => simp [newlineOffsets]
  | append_singleton text c ih =>
    rw [newlineOffsets_append, List.mem_append, ih, bytes_append, Nat.zero_add]
    have hlast : o ∈ newlineOffsets (byteLength text) [c] ↔ c = '\n' ∧ o = byteLength text := by
      simp only [newlineOffsets]
      split
      next h => simp [h]
      next h => simp [h]
    rw [hlast]
    rcases Nat.lt_or_ge o (bytes text).length with hlt | hge
    · rw [List.getElem?_append_left hlt]
      rw [length_bytes] at hlt
      constructor
      · rintro (h | ⟨-, rfl⟩)
        · exact h
        · exact absurd hlt (Nat.lt_irrefl _)
      · exact .inl
    · rw [List.getElem?_append_right hge, List.getElem?_eq_none hge, bytes_cons, bytes_nil,
        List.append_nil, getElem?_utf8EncodeChar_eq_lineFeed_iff]
      rw [length_bytes] at hge ⊢
      constructor
      · rintro (h | ⟨rfl, rfl⟩)
        · cases h
        · exact ⟨rfl, Nat.sub_self _⟩
      · rintro ⟨rfl, h⟩
        exact .inr ⟨rfl, by omega⟩

end NewlineOffsets

namespace LineIndex

theorem bisect_eq {breaks : Array Nat} {offset n lo hi : Nat} (h : hi ≤ breaks.size)
    (hbelow : ∀ i (hi : i < breaks.size), i < n → breaks[i] < offset)
    (habove : ∀ i (hb : i < breaks.size), n ≤ i → i < hi → offset ≤ breaks[i])
    (hlo : lo ≤ n) (hhi : n ≤ hi) : bisect breaks offset lo hi h = n := by
  fun_induction bisect breaks offset lo hi h with
  | case1 lo hi h hlt hmid ih =>
    refine ih habove ?_ hhi
    by_contra hn
    have := habove ((lo + hi) / 2) (by omega) (by omega) (by omega)
    omega
  | case2 lo hi h hlt hmid ih =>
    refine ih (fun i hb hni hi => habove i hb hni (by omega)) hlo ?_
    by_contra hn
    exact hmid (hbelow _ (by omega) (by omega))
  | case3 lo hi h hlt => omega

theorem newlines_ofText (text : List Char) :
    (ofText text).newlines = (newlineOffsets 0 text).length := rfl

theorem getElem?_breaks_ofText {text : List Char} {i : Nat}
    (h : i < (newlineOffsets 0 text).length) :
    (ofText text).breaks[i]? = (newlineOffsets 0 text)[i]? := by
  simp only [ofText]
  split
  · simp
  · simp [List.getElem?_append_left h]

theorem lineStart?_succ_ofText (text : List Char) (line : Nat) :
    (ofText text).lineStart? (line + 1) = (newlineOffsets 0 text)[line]?.map (· + 1) := by
  simp only [lineStart?]
  split
  next h =>
    have hbreak := getElem?_breaks_ofText h
    have hsize : line < (ofText text).breaks.size :=
      Nat.lt_of_lt_of_le h (ofText text).newlines_le
    rw [← hbreak, Array.getElem?_eq_getElem hsize]
    rfl
  next h =>
    rw [List.getElem?_eq_none (Nat.le_of_not_lt h)]
    rfl

theorem locationOn_eq (index : LineIndex) (offset : Nat) {line : Nat}
    (h : line ≤ index.newlines) :
    index.locationOn offset line h = ⟨line, offset - (index.lineStart? line).getD 0⟩ := by
  cases line with
  | zero => rfl
  | succ line => simp [locationOn, lineStart?, Nat.lt_of_succ_le h]

theorem location_eq (index : LineIndex) (offset : Nat) :
    index.location offset =
      ⟨index.line offset, offset - (index.lineStart? (index.line offset)).getD 0⟩ :=
  index.locationOn_eq offset (index.line_le offset)

section Split

variable {text : List Char} {offset : Nat} {below above : List Nat}

/-- The line of an offset is the number of line feeds below it. -/
theorem line_ofText_of_split (hsplit : newlineOffsets 0 text = below ++ above)
    (hbelow : ∀ o ∈ below, o < offset) (habove : ∀ o ∈ above, offset ≤ o) :
    (ofText text).line offset = below.length := by
  have hbreaks : ∀ i (hi : i < (ofText text).breaks.size), i < (newlineOffsets 0 text).length →
      (below ++ above)[i]? = some (ofText text).breaks[i] := by
    intro i hi hlt
    rw [← hsplit, ← getElem?_breaks_ofText hlt, Array.getElem?_eq_getElem hi]
  have hlength : (newlineOffsets 0 text).length = below.length + above.length := by
    rw [hsplit, List.length_append]
  refine bisect_eq _ (fun i hi hlt => ?_) (fun i hi hle hlt => ?_) (Nat.zero_le _) ?_
  · have hmem := hbreaks i hi (by omega)
    rw [List.getElem?_append_left hlt] at hmem
    exact hbelow _ (List.mem_of_getElem? hmem)
  · have hmem := hbreaks i hi hlt
    rw [List.getElem?_append_right hle] at hmem
    exact habove _ (List.mem_of_getElem? hmem)
  · rw [newlines_ofText]
    omega

/-- The column of an offset counts from the last line feed below it. -/
theorem location_ofText_of_split (hsplit : newlineOffsets 0 text = below ++ above)
    (hbelow : ∀ o ∈ below, o < offset) (habove : ∀ o ∈ above, offset ≤ o) :
    (ofText text).location offset =
      ⟨below.length, offset - (below.getLast?.map (· + 1)).getD 0⟩ := by
  rw [location_eq, line_ofText_of_split hsplit hbelow habove]
  congr 2
  cases hlength : below.length with
  | zero => simp [List.length_eq_zero_iff.1 hlength, lineStart?]
  | succ n =>
    rw [lineStart?_succ_ofText, hsplit, List.getElem?_append_left (by omega),
      List.getLast?_eq_getElem?, hlength, Nat.add_sub_cancel]

end Split

theorem after_eq (text : List Char) :
    Location.after text =
      ⟨(newlineOffsets 0 text).length,
        byteLength text - ((newlineOffsets 0 text).getLast?.map (· + 1)).getD 0⟩ := by
  induction text using List.reverseRecOn with
  | nil => rfl
  | append_singleton text c ih =>
    have hlast : ((newlineOffsets 0 text).getLast?.map (· + 1)).getD 0 ≤ byteLength text := by
      cases hlast : (newlineOffsets 0 text).getLast? with
      | none => simp
      | some o =>
        have := bounds_of_mem_newlineOffsets (List.mem_of_getLast? hlast)
        simp
        omega
    rw [Location.after_concat, ih, newlineOffsets_append, Location.advance]
    split
    next h =>
      subst h
      have : '\n'.utf8Size = 1 := rfl
      simp [newlineOffsets, this]
    next h =>
      simp [newlineOffsets, h]
      omega

theorem after_of_not_mem {text : List Char} (h : '\n' ∉ text) :
    Location.after text = ⟨0, byteLength text⟩ := by
  rw [after_eq, newlineOffsets_of_not_mem h]
  rfl

theorem location_ofText_append (before rest : List Char) :
    (ofText (before ++ rest)).location (byteLength before) = Location.after before := by
  rw [after_eq, location_ofText_of_split (newlineOffsets_append 0 before rest)]
  · intro o hmem
    have := bounds_of_mem_newlineOffsets hmem
    omega
  · intro o hmem
    have := bounds_of_mem_newlineOffsets hmem
    omega

theorem take_breaks_ofText (text : List Char) :
    (ofText text).breaks.toList.take (ofText text).newlines = newlineOffsets 0 text := by
  simp only [ofText]
  split
  · simp
  · simp

theorem ofText_congr {a b : List Char} (hlength : byteLength a = byteLength b)
    (hnewlines : newlineOffsets 0 a = newlineOffsets 0 b) : ofText a = ofText b := by
  have hlast : a.getLast? = some '\n' ↔ b.getLast? = some '\n' := by
    rw [getLast?_eq_lineFeed_iff, getLast?_eq_lineFeed_iff, hnewlines, hlength]
  simp only [ofText, hlast, hnewlines, hlength]

end LineIndex

/-- The texts have equally many bytes, and the same of them are line feeds. -/
structure SameLines (a b : List Char) : Prop where
  length : byteLength a = byteLength b
  newlines : ∀ offset, newlineOffsets offset a = newlineOffsets offset b

namespace SameLines

variable {a b c d : List Char}

theorem refl (a : List Char) : SameLines a a := ⟨rfl, fun _ => rfl⟩

theorem append (h : SameLines a b) (h' : SameLines c d) : SameLines (a ++ c) (b ++ d) := by
  constructor
  · rw [byteLength_append, byteLength_append, h.length, h'.length]
  · intro offset
    rw [newlineOffsets_append, newlineOffsets_append, h.newlines, h'.newlines, h.length]

theorem of_not_mem (hlength : byteLength a = byteLength b) (ha : '\n' ∉ a) (hb : '\n' ∉ b) :
    SameLines a b := by
  constructor
  · exact hlength
  · intro offset
    rw [newlineOffsets_of_not_mem ha, newlineOffsets_of_not_mem hb]

theorem ofText (h : SameLines a b) : LineIndex.ofText a = LineIndex.ofText b :=
  LineIndex.ofText_congr h.length (h.newlines 0)

theorem after (h : SameLines a b) : Location.after a = Location.after b := by
  rw [LineIndex.after_eq, LineIndex.after_eq, h.newlines, h.length]

end SameLines

end ImagingLexer
