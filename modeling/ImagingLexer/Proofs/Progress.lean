import ImagingLexer.Proofs.Bytes
import ImagingLexer.Proofs.Scan

/-! # Progress of a scan

A step of a scan goes along what is left and so comes to an end itself. It takes whole characters,
at least one of them, and adds at most the token of what it has taken. So a scan comes to its end
after at most as many steps as its source has bytes, with at most one token for each step and the
one that marks the end.
-/

namespace ImagingLexer

open Lexeme

namespace Scan

/-- The scans that come up between two steps, with the number of steps before: a step is made as
long as something is left. -/
inductive Reached (source : String) : Nat → Scan → Prop
  | start : Reached source 0 (.start source.toList)
  | step {steps : Nat} {scan : Scan} : Reached source steps scan → scan.rest ≠ [] →
      Reached source (steps + 1) (scan.step (.ofSource source))

/-- From `scan` to `next` the offset moves on to the beginning of a character or to the end of the
source. The tokens stay, and the bytes that were passed become one more token, unless the first of
them is a blank or opens a comment. -/
structure Advances (source : String) (scan next : Scan) : Prop where
  offset_lt : scan.offset < next.offset
  offset_le : next.offset ≤ (utf8 source).length
  isValid_offset : (String.Pos.Raw.mk next.offset).IsValid source
  bytes_rest : bytes next.rest = (utf8 source).drop next.offset
  tokens : ∃ pushed : Option Token,
    next.tokens.toList = scan.tokens.toList ++ pushed.toList ∧
    (pushed = none ↔
      ∃ byte ∈ [0x20, 0x09, 0x0D, 0x0A, 0x23], (utf8 source)[scan.offset]? = some byte) ∧
    ∀ token ∈ pushed, token.span.start = scan.offset ∧ token.span.stop = next.offset

end Scan

section Separators

variable {c : Char}

theorem exists_head?_eq_iff :
    (∃ byte ∈ [0x20, 0x09, 0x0D, 0x0A, 0x23], (String.utf8EncodeChar c).head? = some byte) ↔
      c ∈ separators := by
  constructor
  · rintro ⟨byte, hbyte, hhead⟩
    have hascii : byte < 0x80 ∧ Char.ofNat byte.toNat ∈ separators := by
      simp only [List.mem_cons, List.not_mem_nil, or_false] at hbyte
      rcases hbyte with rfl | rfl | rfl | rfl | rfl <;> decide
    have hc := (head?_utf8EncodeChar_eq_some_iff hascii.1).1 hhead
    rw [← Char.ofNat_toNat c, hc]
    exact hascii.2
  · intro h
    simp only [separators, List.mem_cons, List.not_mem_nil, or_false] at h
    rcases h with rfl | rfl | rfl | rfl | rfl <;> exact ⟨_, by decide, rfl⟩

theorem sort?_first_eq_none_iff {rest : List Char} :
    (first c rest).1.sort? = none ↔ c ∈ separators := by
  have htext := text_append_first c rest
  have hparts := (first_spec c rest).1
  rw [mem_separators_iff]
  constructor
  · intro hsort
    rcases sort?_eq_none_iff.1 hsort with ⟨d, hd⟩ | ⟨body, hbody⟩
    · rw [hd] at htext hparts
      obtain ⟨rfl, -⟩ := List.cons.inj htext
      exact .inl hparts
    · rw [hbody] at htext
      obtain ⟨rfl, -⟩ := List.cons.inj htext
      exact .inr rfl
  · rintro (hblank | rfl)
    · rw [first, if_pos hblank]
      rfl
    · rfl

end Separators

namespace Scan

variable {source : String} {scan : Scan}

/-- The source is `before` and what the scan has left, which every step keeps true of a longer
`before`. -/
structure StandsAfter (source : String) (before : List Char) (scan : Scan) : Prop where
  toList_eq : source.toList = before ++ scan.rest
  offset_eq : scan.offset = byteLength before

namespace StandsAfter

variable {before rest : List Char} {c : Char}

theorem utf8_eq (h : StandsAfter source before scan) :
    utf8 source = bytes before ++ bytes scan.rest := by
  rw [utf8_eq_bytes, h.toList_eq, bytes_append]

theorem offset_le (h : StandsAfter source before scan) : scan.offset ≤ (utf8 source).length := by
  rw [h.utf8_eq, h.offset_eq, List.length_append, length_bytes]
  exact Nat.le_add_right _ _

theorem offset_eq_length_iff (h : StandsAfter source before scan) :
    scan.offset = (utf8 source).length ↔ scan.rest = [] := by
  rw [h.utf8_eq, h.offset_eq, List.length_append, length_bytes, length_bytes,
    ← byteLength_eq_zero_iff]
  omega

theorem isValid_offset (h : StandsAfter source before scan) :
    (String.Pos.Raw.mk scan.offset).IsValid source := by
  rw [h.offset_eq]
  exact isValid_of_append h.toList_eq

theorem bytes_rest (h : StandsAfter source before scan) :
    bytes scan.rest = (utf8 source).drop scan.offset := by
  rw [h.utf8_eq, h.offset_eq, List.drop_left' (length_bytes before)]

theorem getElem?_utf8 (h : StandsAfter source before scan) (hrest : scan.rest = c :: rest) :
    (utf8 source)[scan.offset]? = (String.utf8EncodeChar c).head? := by
  rw [utf8_eq_bytes, h.toList_eq, hrest, h.offset_eq, getElem?_bytes_append]

theorem step (h : StandsAfter source before scan) (hrest : scan.rest = c :: rest) :
    StandsAfter source (before ++ (first c rest).1.text) (scan.step (.ofSource source)) := by
  rw [step_of_rest_eq_cons _ hrest]
  constructor
  · rw [rest_accept, List.append_assoc, text_append_first, ← hrest]
    exact h.toList_eq
  · rw [offset_accept, h.offset_eq, byteLength_append]

theorem tokens_step (h : StandsAfter source before scan) (hrest : scan.rest = c :: rest) :
    (scan.step (.ofSource source)).tokens.toList =
      scan.tokens.toList ++ ((first c rest).1.token? before).toList := by
  have hindex : LineIndex.ofSource source = .ofText (before ++ scan.rest) :=
    congrArg LineIndex.ofText h.toList_eq
  rw [step_of_rest_eq_cons _ hrest]
  exact tokens_accept h.offset_eq hindex

theorem advances (h : StandsAfter source before scan)
    (hlt : scan.offset < (utf8 source).length) :
    scan.Advances source (scan.step (.ofSource source)) := by
  have hleft : scan.rest ≠ [] := mt h.offset_eq_length_iff.2 (Nat.ne_of_lt hlt)
  obtain ⟨c, rest, hrest⟩ := List.exists_cons_of_ne_nil hleft
  have hnext := h.step hrest
  have hstop : (scan.step (.ofSource source)).offset =
      scan.offset + byteLength (first c rest).1.text := by
    rw [hnext.offset_eq, byteLength_append, h.offset_eq]
  have hnonempty := byteLength_eq_zero_iff.not.2 (text_first_ne_nil c rest)
  refine ⟨by omega, hnext.offset_le, hnext.isValid_offset, hnext.bytes_rest,
    (first c rest).1.token? before, h.tokens_step hrest, ?_, ?_⟩
  -- The byte at the offset is the first of `c`, which decides whether the lexeme is skipped.
  · rw [h.getElem?_utf8 hrest, exists_head?_eq_iff, ← @sort?_first_eq_none_iff c rest,
      token?, Option.map_eq_none_iff]
  · intro token htoken
    obtain ⟨kind, value, -, rfl⟩ := token?_eq_some_iff.1 htoken
    rw [hstop, h.offset_eq]
    exact ⟨rfl, rfl⟩

end StandsAfter

namespace Reached

variable {steps : Nat}

theorem exists_standsAfter (h : Reached source steps scan) :
    ∃ before, StandsAfter source before scan := by
  induction h with
  | start => exact ⟨[], rfl, rfl⟩
  | step _ hleft ih =>
    obtain ⟨before, hstands⟩ := ih
    obtain ⟨c, rest, hrest⟩ := List.exists_cons_of_ne_nil hleft
    exact ⟨_, hstands.step hrest⟩

theorem advances (h : Reached source steps scan) (hlt : scan.offset < (utf8 source).length) :
    scan.Advances source (scan.step (.ofSource source)) := by
  obtain ⟨before, hstands⟩ := h.exists_standsAfter
  exact hstands.advances hlt

theorem offset_le (h : Reached source steps scan) : scan.offset ≤ (utf8 source).length := by
  obtain ⟨before, hstands⟩ := h.exists_standsAfter
  exact hstands.offset_le

theorem bounds (h : Reached source steps scan) :
    scan.tokens.size ≤ steps ∧ steps ≤ scan.offset := by
  induction h with
  | start => exact ⟨Nat.le_refl 0, Nat.le_refl 0⟩
  | step h hleft ih =>
    obtain ⟨before, hstands⟩ := h.exists_standsAfter
    have hlt := Nat.lt_of_le_of_ne hstands.offset_le (mt hstands.offset_eq_length_iff.1 hleft)
    have hstep := hstands.advances hlt
    obtain ⟨pushed, htokens, -⟩ := hstep.tokens
    have hsize := congrArg List.length htokens
    rw [List.length_append, Array.length_toList, Array.length_toList] at hsize
    have hpushed : pushed.toList.length ≤ 1 := Option.length_toList_le
    have hoffset := hstep.offset_lt
    omega

theorem run (h : Reached source steps scan) :
    ∃ more, Reached source more (scan.run (.ofSource source)) := by
  fun_induction Scan.run (LineIndex.ofSource source) scan generalizing steps with
  | case1 scan hrest => exact ⟨steps, h⟩
  | case2 scan hleft ih => exact ih (h.step hleft)

end Reached

end Scan

/-- Every step of a scan makes progress. The steps lead to the end of the source, after at most as
many of them as it has bytes, and the tokens are no more than that but for the last. -/
theorem advances_tokenize (source : String) :
    (∀ steps scan, Scan.Reached source steps scan → scan.offset < (utf8 source).length →
      scan.Advances source (scan.step (.ofSource source))) ∧
    (∀ steps scan, Scan.Reached source steps scan → steps ≤ (utf8 source).length) ∧
    (∃ steps scan, Scan.Reached source steps scan ∧ scan.offset = (utf8 source).length ∧
      (tokenize source).value = scan.finish (.ofSource source)) ∧
    (tokenize source).value.size ≤ (utf8 source).length + 1 := by
  have hsteps : ∀ steps scan, Scan.Reached source steps scan → steps ≤ (utf8 source).length :=
    fun _ _ h => Nat.le_trans h.bounds.2 h.offset_le
  obtain ⟨steps, hlast⟩ := (@Scan.Reached.start source).run
  obtain ⟨before, hstands⟩ := hlast.exists_standsAfter
  have hend := hstands.offset_eq_length_iff.2 (Scan.rest_run _ _)
  refine ⟨fun _ _ h => h.advances, hsteps, ⟨steps, _, hlast, hend, rfl⟩, ?_⟩
  calc (tokenize source).value.size
      = ((Scan.start source.toList).run (.ofSource source)).tokens.size + 1 := Array.size_push _
    _ ≤ steps + 1 := Nat.succ_le_succ hlast.bounds.1
    _ ≤ (utf8 source).length + 1 := Nat.succ_le_succ (hsteps steps _ hlast)

theorem advances_tokenize_cut_string :
    let source := "\"ab→ c"
    let cut := (Scan.start source.toList).step (.ofSource source)
    let next := cut.step (.ofSource source)
    Scan.Reached source 1 cut ∧ cut.offset = 3 ∧ next.offset = 6 ∧
      cut.Advances source next ∧ 1 ≤ (utf8 source).length := by
  intro source cut next
  have hcut : Scan.Reached source 1 cut := .step .start (by decide)
  obtain ⟨hadvances, hsteps, -⟩ := advances_tokenize source
  exact ⟨hcut, by decide +kernel, by decide +kernel, hadvances 1 cut hcut (by decide +kernel),
    hsteps 1 cut hcut⟩

end ImagingLexer
