import ImagingLexer.Proofs.Characters
import ImagingLexer.Proofs.Records

/-! # Diagnostics of a source

The faults of a source are counted while it is scanned, listed from its tokens afterwards and met
by whoever collects them with a cursor. There is one for each broken token, in the order of the
source, whichever way they are found; everything else that a cursor collects is a token.
-/

namespace ImagingLexer

/-- The diagnostic says what is wrong with the token, and its text is what the token covers. -/
structure Token.Diagnosed (source : String) (token : Token) (diagnostic : Diagnostic) : Prop where
  value_eq : token.value = .error diagnostic.fault
  text_eq : diagnostic.text = token.text
  location_eq : diagnostic.location = token.span.location
  utf8_text : utf8 diagnostic.text = slice (utf8 source) token.span.start token.span.stop

section Lists

variable {α β : Type} {p : α → Bool} {f : α → Option β} {R : α → β → Prop}

theorem forall₂_filter_filterMap {l : List α} (hnone : ∀ a ∈ l, p a = false → f a = none)
    (hsome : ∀ a ∈ l, p a = true → ∃ b, f a = some b ∧ R a b) :
    List.Forall₂ R (l.filter p) (l.filterMap f) := by
  induction l with
  | nil => exact .nil
  | cons a l ih =>
    obtain ⟨hnone_a, hnone⟩ := List.forall_mem_cons.1 hnone
    obtain ⟨hsome_a, hsome⟩ := List.forall_mem_cons.1 hsome
    cases ha : p a with
    | false =>
      rw [List.filter_cons_of_neg (by simp [ha]), List.filterMap_cons_none (hnone_a ha)]
      exact ih hnone hsome
    | true =>
      obtain ⟨b, hb, hR⟩ := hsome_a ha
      rw [List.filter_cons_of_pos ha, List.filterMap_cons_some hb]
      exact .cons hR (ih hnone hsome)

end Lists

section Reading

variable {source : String} {token : Token}

theorem Token.diagnostics_surface (token : Token) :
    Taken.diagnostics token.surface.value = token.diagnostic?.toList := by
  unfold surface
  split
  next h => rw [h]; rfl
  next diagnostic h => rw [h]; rfl

theorem toOption_surface (h : token ∈ (tokenize source).value.tokens.toList) :
    token.surface.value.toOption = Option.guard (fun token : Token => token.kind ≠ .error) token := by
  rcases isRead_surface h with ⟨hkind, htaken⟩ | ⟨fault, hkind, -, htaken⟩
  · simp [htaken, hkind, Except.toOption]
  · simp [htaken, hkind, Except.toOption, Option.guard]

theorem diagnostic?_eq_none (h : token ∈ (tokenize source).value.tokens.toList)
    (hkind : token.kind ≠ .error) : token.diagnostic? = none := by
  rw [← Option.not_isSome_iff_eq_none, Token.isSome_diagnostic?, isSome_fault?_of_mem_tokenize h]
  exact hkind

theorem exists_diagnosed (h : token ∈ (tokenize source).value.tokens.toList)
    (hkind : token.kind = .error) :
    ∃ diagnostic, token.diagnostic? = some diagnostic ∧ token.Diagnosed source diagnostic := by
  obtain ⟨fault, hfault⟩ := Option.isSome_iff_exists.1 ((isSome_fault?_of_mem_tokenize h).2 hkind)
  refine ⟨⟨fault, token.text, token.span.location⟩, by simp [Token.diagnostic?, hfault], ?_⟩
  exact ⟨Token.fault?_eq_some_iff.1 hfault, rfl, rfl, (cuts_of_mem_tokenize h).1.slice_eq.symm⟩

theorem collect_start (source : String) :
    (Cursor.start (tokenize source).value).collect.value.1 =
      (tokenize source).value.tokens.toList.map (·.surface.value) :=
  (Cursor.value_collect_of_unfinished (endsOnce_tokenize source) _ rfl).1

end Reading

section Views

variable (source : String)

theorem forall₂_diagnosed_errors :
    List.Forall₂ (Token.Diagnosed source)
      ((tokenize source).value.tokens.toList.filter (·.kind = .error))
      (tokenize source).value.errors := by
  apply forall₂_filter_filterMap
  · exact fun token h hkind => diagnostic?_eq_none h (by simpa using hkind)
  · exact fun token h hkind => exists_diagnosed h (by simpa using hkind)

theorem flatMap_diagnostics_collect :
    (Cursor.start (tokenize source).value).collect.value.1.flatMap Taken.diagnostics =
      (tokenize source).value.errors := by
  rw [collect_start, List.flatMap_map, TokenBuffer.errors, List.filterMap_eq_flatMap_toList]
  simp only [Token.diagnostics_surface]

theorem filterMap_toOption_collect :
    (Cursor.start (tokenize source).value).collect.value.1.filterMap Except.toOption =
      (tokenize source).value.tokens.toList.filter (·.kind ≠ .error) := by
  rw [collect_start, List.filterMap_map, ← List.filterMap_eq_filter]
  exact List.filterMap_congr fun token h => toOption_surface h

end Views

/-- The count of the scan, the list of the buffer and what a cursor collects tell of the same
broken tokens, in the order of the source. -/
theorem errors_tokenize (source : String) :
    let buffer := (tokenize source).value
    let collected := (Cursor.start buffer).collect.value.1
    let broken := buffer.tokens.toList.filter (·.kind = .error)
    buffer.errorCount = broken.length ∧
      buffer.errors.length = buffer.errorCount ∧
      collected.flatMap Taken.diagnostics = buffer.errors ∧
      collected.filterMap Except.toOption = buffer.tokens.toList.filter (·.kind ≠ .error) ∧
      List.Forall₂ (Token.Diagnosed source) broken buffer.errors ∧
      broken.Pairwise (fun a b => a.span.start < b.span.start) ∧
      (buffer.hasErrors = true ↔ buffer.errors ≠ []) := by
  intro buffer collected broken
  have hbroken := forall₂_diagnosed_errors source
  have hcount : buffer.errorCount = broken.length := by
    rw [errorCount_eq_countP, List.countP_eq_length_filter]
  have hlength : buffer.errors.length = buffer.errorCount :=
    hbroken.length_eq.symm.trans hcount.symm
  refine ⟨hcount, hlength, flatMap_diagnostics_collect source,
    filterMap_toOption_collect source, hbroken, (pairwise_start_tokenize source).filter _, ?_⟩
  rw [TokenBuffer.hasErrors, decide_eq_true_iff, ← hlength, List.length_pos_iff]

end ImagingLexer
