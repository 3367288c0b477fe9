import ImagingLexer.LineIndex
import ImagingLexer.Token

/-! # Token buffers

All tokens of a source. The last one, and so at least one, marks the end of the source.
-/

namespace ImagingLexer

@[ext] structure TokenBuffer where
  tokens : Array Token
  lineIndex : LineIndex
  errorCount : Nat
  ends : ∃ token, tokens.back? = some token ∧ token.kind = .eof
  deriving DecidableEq

namespace TokenBuffer

/-- Equality of the parts, where floats are compared as numbers. -/
instance : BEq TokenBuffer where
  beq a b :=
    a.tokens == b.tokens && a.lineIndex == b.lineIndex && a.errorCount == b.errorCount

def size (buffer : TokenBuffer) : Nat := buffer.tokens.size

def isEmpty (buffer : TokenBuffer) : Bool := buffer.tokens.isEmpty

def hasErrors (buffer : TokenBuffer) : Bool := 0 < buffer.errorCount

def errors (buffer : TokenBuffer) : List Diagnostic :=
  buffer.tokens.toList.filterMap Token.diagnostic?

theorem size_pos (buffer : TokenBuffer) : 0 < buffer.size := by
  obtain ⟨token, hback, _⟩ := buffer.ends
  rw [Array.back?_eq_getElem?] at hback
  obtain ⟨h, _⟩ := Array.getElem?_eq_some_iff.1 hback
  exact Nat.zero_lt_of_lt h

@[simp] theorem isEmpty_eq_false (buffer : TokenBuffer) : buffer.isEmpty = false := by
  have := buffer.size_pos
  simp only [isEmpty, Array.isEmpty, decide_eq_false_iff_not]
  exact Nat.ne_of_gt this

theorem kind_getElem_last (buffer : TokenBuffer) {i : Nat} (h : i < buffer.tokens.size)
    (hlast : i + 1 = buffer.tokens.size) : buffer.tokens[i].kind = .eof := by
  obtain ⟨token, hback, hkind⟩ := buffer.ends
  rw [Array.back?_eq_getElem?, ← hlast] at hback
  obtain ⟨_, rfl⟩ := Array.getElem?_eq_some_iff.1 hback
  exact hkind

end TokenBuffer

end ImagingLexer
