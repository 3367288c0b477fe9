import ImagingLexer.Proofs.Overwrite

/-! # Faults are isolated

A source is mended by overwriting its broken lexemes with tabs. What is left of it is scanned
without a fault, and gives the tokens that the source has apart from the broken ones: wherever
a fault stands, the lexemes around it are those that would stand there without it.
-/

namespace ImagingLexer

open Lexeme

def isSound (source : String) (i : Nat) (_byte : UInt8) : Bool :=
  ∀ token ∈ (tokenize source).value.tokens.toList, token.kind = .error → ¬ token.Covers i

def faultMask : Mask where
  hides := Lexeme.isBroken
  shows_lineFeed := rfl

section Mended

theorem keeps_faultMask (source : String) : faultMask.Keeps source (isSound source) := by
  intro a lexeme b hsplit i byte hbyte
  have hi := lt_byteLength_of_getElem?_bytes hbyte
  rw [Bool.eq_iff_iff, isSound, decide_eq_true_iff, Bool.not_eq_true', ← Bool.not_eq_true]
  constructor
  · intro h hbroken
    obtain ⟨fault, hmeaning⟩ := isBroken_iff.1 hbroken
    have hsort : lexeme.sort? = some (.error, .error fault) :=
      sort?_eq_some_iff.2 (.inr ⟨fault, hmeaning, rfl, rfl⟩)
    obtain ⟨hmem, hcovers⟩ := (covers_tokenize_iff hsplit hi).2
      (token?_eq_some_iff.2 ⟨_, _, hsort, rfl⟩)
    exact h _ hmem rfl hcovers
  · intro h token hmem hkind hcovers
    obtain ⟨kind, value, hsort, rfl⟩ :=
      token?_eq_some_iff.1 ((covers_tokenize_iff hsplit hi).1 ⟨hmem, hcovers⟩)
    exact h ((kind_eq_error_iff hsort).1 hkind)

/-- The source with a tab in place of each byte of an error token. -/
def mended (source : String) : String :=
  .ofByteArray (overwritten (isSound source) (utf8 source)).toByteArray
    (faultMask.isValidUTF8_overwritten (keeps_faultMask source))

theorem utf8_mended (source : String) :
    utf8 (mended source) = overwritten (isSound source) (utf8 source) := by
  simp [utf8, mended]

theorem mended_eq (source : String) : mended source = faultMask.overwrite source := by
  apply utf8_injective
  rw [utf8_mended, faultMask.utf8_overwrite (keeps_faultMask source)]

theorem tokens_mended (source : String) :
    (tokenize (mended source)).value.tokens.toList =
      (tokenize source).value.tokens.toList.filter (·.kind ≠ .error) := by
  have hkeep : ∀ (lexeme : Lexeme) (before : List Char) (token : Token),
      lexeme.token? before = some token →
        decide (token.kind ≠ .error) = !faultMask.hides lexeme := by
    intro lexeme before token htoken
    obtain ⟨kind, value, hsort, rfl⟩ := token?_eq_some_iff.1 htoken
    have herror := kind_eq_error_iff hsort
    simp [faultMask, herror]
  rw [mended_eq, faultMask.tokens_overwrite hkeep rfl]

theorem errorCount_mended (source : String) : (tokenize (mended source)).value.errorCount = 0 := by
  rw [errorCount_eq_countP, tokens_mended, List.countP_eq_zero]
  intro token hmem
  simpa using (List.mem_filter.1 hmem).2

end Mended

/-- Mending a source takes its error tokens away and changes nothing else. -/
theorem tokenize_mended (source : String) :
    (tokenize (mended source)).value.errorCount = 0 ∧
      (tokenize (mended source)).value.tokens.toList =
        (tokenize source).value.tokens.toList.filter (·.kind ≠ .error) ∧
      (tokenize (mended source)).value.lineIndex = (tokenize source).value.lineIndex := by
  refine ⟨errorCount_mended source, tokens_mended source, ?_⟩
  rw [mended_eq]
  exact faultMask.lineIndex_overwrite source

end ImagingLexer
