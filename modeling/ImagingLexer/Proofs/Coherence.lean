import ImagingLexer.Proofs.Cursor.Run
import ImagingLexer.Proofs.MaximalMunch
import Mathlib.Data.List.Nodup

/-! # Kinds and values agree

Some readers of a token look at its kind, some at the form of its value and some at both. On the
tokens of a source it makes no difference: the kind, the text and the value of a token fit, so that
each typed accessor answers for its own kind only and faults are found in error tokens only.
-/

namespace ImagingLexer

def valuedKinds : List Kind := [.intLit, .floatLit, .booleanLit, .stringLit]

/-- The kind of a token says which form its value has, and the text says which value it is. -/
structure Token.Decoded (token : Token) : Prop where
  int_iff : (∃ value, token.value = .int value) ↔ token.kind = .intLit
  float_iff : (∃ x, token.value = .float x) ↔ token.kind = .floatLit
  float_finite : ∀ x, token.value = .float x → x.isFinite = true ∧ x.isNegative = false
  boolean_iff : (∃ truth, token.value = .boolean truth) ↔ token.kind = .booleanLit
  boolean_text : token.kind = .booleanLit →
    (token.value = .boolean true ↔ token.text = "true") ∧
      (token.value = .boolean false ↔ token.text = "false")
  string_iff : (∃ content, token.value = .string content) ↔ token.kind = .stringLit
  string_text : ∀ content, token.value = .string content → token.text = "\"" ++ content ++ "\""
  error_iff : (∃ fault, token.value = .error fault) ↔ token.kind = .error
  absent_iff : token.value = .absent ↔ token.kind ∉ valuedKinds ∧ token.kind ≠ .error

/-- What each typed accessor answers, under the kind that it is for. -/
def Token.accesses (token : Token) : List (Kind × Except WrongKind Value) :=
  [(.intLit, token.intValue.map .int), (.floatLit, token.floatValue.map .float),
    (.booleanLit, token.booleanValue.map .boolean), (.stringLit, token.stringValue.map .string)]

structure Token.Coherent (token : Token) : Prop where
  accesses_eq : token.accesses = valuedKinds.map fun kind =>
    (kind, if token.kind = kind then .ok token.value else .error ⟨kind, token.kind⟩)
  countP_accesses : token.accesses.countP (·.2.isOk) = if token.kind ∈ valuedKinds then 1 else 0
  fault?_iff : token.fault?.isSome = true ↔ token.kind = .error
  diagnostic?_iff : token.diagnostic?.isSome = true ↔ token.kind = .error
  surface_iff : (∃ diagnostic, token.surface.value = .error diagnostic) ↔ token.kind = .error

inductive Fits (text : String) : Kind → Value → Prop
  | int (value : Int32) : Fits text .intLit (.int value)
  | float {x : Binary32} : x.isFinite = true → x.isNegative = false →
      Fits text .floatLit (.float x)
  | boolean {truth : Bool} : text = (if truth then "true" else "false") →
      Fits text .booleanLit (.boolean truth)
  | string {content : String} : text = "\"" ++ content ++ "\"" →
      Fits text .stringLit (.string content)
  | error (fault : Fault) : Fits text .error (.error fault)
  | absent {kind : Kind} : kind ∉ valuedKinds → kind ≠ .error → Fits text kind .absent

namespace Fits

variable {text : String} {span : Span} {kind : Kind} {value : Value}

theorem decoded (h : Fits text kind value) : Token.Decoded ⟨kind, text, span, value⟩ := by
  cases h with
  | int value => constructor <;> simp [valuedKinds]
  | float hfinite hsign => constructor <;> simp [valuedKinds, hfinite, hsign]
  | @boolean truth htext => cases truth <;> constructor <;> simp [valuedKinds, htext]
  | string htext => constructor <;> simp [valuedKinds, htext]
  | error fault => constructor <;> simp [valuedKinds]
  | absent hvalued herror =>
    simp only [valuedKinds, List.mem_cons, List.not_mem_nil, or_false, not_or] at hvalued
    constructor <;> simp [valuedKinds, hvalued, herror]

theorem accesses_eq (h : Fits text kind value) :
    Token.accesses ⟨kind, text, span, value⟩ = valuedKinds.map fun valued =>
      (valued, if kind = valued then .ok value else .error ⟨valued, kind⟩) := by
  cases h with
  | absent hvalued herror =>
    have hnone : Token.accesses ⟨kind, text, span, .absent⟩ =
        valuedKinds.map fun valued => (valued, .error ⟨valued, kind⟩) := by
      cases kind <;> rfl
    rw [hnone]
    apply List.map_congr_left
    intro valued hmem
    rw [if_neg]
    rintro rfl
    exact hvalued hmem
  | _ => rfl

theorem of_mem_reservedWords (h : (text, kind, value) ∈ reservedWords) :
    Fits text kind value := by
  have hall : ∀ entry ∈ reservedWords,
      entry.2.2 = .absent ∧ entry.2.1 ∉ valuedKinds ∧ entry.2.1 ≠ .error ∨
        entry = ("true", .booleanLit, .boolean true) ∨
        entry = ("false", .booleanLit, .boolean false) := by
    decide
  rcases hall _ h with ⟨rfl, hvalued, herror⟩ | heq | heq
  · exact .absent hvalued herror
  all_goals
    cases heq
    exact .boolean rfl

end Fits

theorem Classified.fits {rule : Rule} {word rest : List Char} {kind : Kind} {value : Value}
    (h : Classified rule word rest kind value) : Fits (String.ofList word) kind value := by
  cases h with
  | operator | ident => exact .absent (by simp [valuedKinds]) (by simp)
  | @reserved text _ _ _ hmem =>
    rw [String.ofList_toList]
    exact .of_mem_reservedWords hmem
  | integer => exact .int _
  | integerOutOfRange | missingFractionDigits | floatOutOfRange | unterminated | cut =>
    exact .error _
  | decimal _ _ _ _ hrounded =>
    exact .float (Binary32.isFinite_of_ofRatio? hrounded) (Binary32.isNegative_of_ofRatio? hrounded)
  | quoted => exact .string (by simp [String.append_assoc])

theorem fits_of_mem_tokenize {source : String} {token : Token}
    (h : token ∈ (tokenize source).value.tokens.toList) :
    Fits token.text token.kind token.value := by
  rcases classified_of_mem_tokenize h with rfl | ⟨c, -, hkind, hvalue⟩ | ⟨rule, rest, -, hclassified⟩
  · exact .absent (by simp [endToken, valuedKinds]) (by simp [endToken])
  · rw [hkind, hvalue]
    exact .error _
  · simpa using hclassified.fits

theorem decoded_of_mem_tokenize {source : String} {token : Token}
    (h : token ∈ (tokenize source).value.tokens.toList) : token.Decoded :=
  (fits_of_mem_tokenize h).decoded

/-- No kind is listed twice, so at most one accessor succeeds. -/
theorem countP_isOk (kind : Kind) (value : Value) :
    (valuedKinds.map fun valued => (valued,
      if kind = valued then (.ok value : Except WrongKind Value) else .error ⟨valued, kind⟩)).countP
        (·.2.isOk) = if kind ∈ valuedKinds then 1 else 0 := by
  have hnodup : valuedKinds.Nodup := by decide
  rw [← hnodup.count, List.countP_map, List.count]
  congr 1
  funext valued
  rcases eq_or_ne kind valued with rfl | hne
  · simp [Except.isOk, Except.toBool]
  · simp [hne, hne.symm, Except.isOk, Except.toBool]

theorem Token.surface_eq_error_iff (token : Token) :
    (∃ diagnostic, token.surface.value = .error diagnostic) ↔ token.fault?.isSome = true := by
  cases hfault : token.fault? with
  | none => simp [value_surface_of_sound hfault]
  | some fault => simp [value_surface_of_broken hfault]

theorem coherent_of_mem_tokenize {source : String} {token : Token}
    (h : token ∈ (tokenize source).value.tokens.toList) : token.Coherent := by
  have haccesses := @Fits.accesses_eq _ token.span _ _ (fits_of_mem_tokenize h)
  have hfault := isSome_fault?_of_mem_tokenize h
  refine ⟨haccesses, ?_, hfault, ?_, ?_⟩
  · rw [haccesses]
    exact countP_isOk _ _
  · rw [Token.isSome_diagnostic?, hfault]
  · rw [Token.surface_eq_error_iff, hfault]

/-- On every token of a source the kind, the text and the value agree, and whoever reads it finds
what its kind says: through an accessor, as a diagnostic or by means of a cursor. -/
theorem coherent_tokenize (source : String) :
    (∀ token ∈ (tokenize source).value.tokens.toList, token.Decoded ∧ token.Coherent) ∧
    ∀ cursor : Cursor (tokenize source).value,
      ((∃ diagnostic, cursor.peek.value = .error diagnostic) ↔ cursor.peekKind = .error) ∧
      ((∃ diagnostic, cursor.next.value.1 = .error diagnostic) ↔ cursor.peekKind = .error) ∧
      ((∃ diagnostic, cursor.step.value.1 = some (.error diagnostic)) ↔
        cursor.finished = false ∧ cursor.peekKind = .error) := by
  refine ⟨fun token h => ⟨decoded_of_mem_tokenize h, coherent_of_mem_tokenize h⟩, ?_⟩
  intro cursor
  have hmem : cursor.current ∈ (tokenize source).value.tokens.toList :=
    Array.mem_toList_iff.2 (Array.getElem_mem cursor.index.isLt)
  have hsurface : (∃ diagnostic, cursor.current.surface.value = .error diagnostic) ↔
      cursor.peekKind = .error := (coherent_of_mem_tokenize hmem).surface_iff
  refine ⟨hsurface, hsurface, ?_⟩
  rw [Cursor.value_step]
  cases cursor.finished with
  | true => simp
  | false => simpa using hsurface

theorem coherent_tokenize_words :
    let source := "true RED@"
    let truth : Token := ⟨.booleanLit, "true", ⟨0, 4, 0, 0⟩, .boolean true⟩
    let color : Token := ⟨.colorConst, "RED", ⟨5, 8, 0, 5⟩, .absent⟩
    let stray : Token := ⟨.error, "@", ⟨8, 9, 0, 8⟩, .error .illegalCharacter⟩
    (truth ∈ (tokenize source).value.tokens.toList ∧ truth.Decoded ∧ truth.Coherent) ∧
      (color ∈ (tokenize source).value.tokens.toList ∧ color.Decoded ∧ color.Coherent) ∧
      stray ∈ (tokenize source).value.tokens.toList ∧ stray.Decoded ∧ stray.Coherent := by
  intro source truth color stray
  have htruth : truth ∈ (tokenize source).value.tokens.toList :=
    List.mem_of_getElem? (i := 0) (by decide +kernel)
  have hcolor : color ∈ (tokenize source).value.tokens.toList :=
    List.mem_of_getElem? (i := 1) (by decide +kernel)
  have hstray : stray ∈ (tokenize source).value.tokens.toList :=
    List.mem_of_getElem? (i := 2) (by decide +kernel)
  obtain ⟨htokens, -⟩ := coherent_tokenize source
  exact ⟨⟨htruth, htokens truth htruth⟩, ⟨hcolor, htokens color hcolor⟩, hstray,
    htokens stray hstray⟩

end ImagingLexer
