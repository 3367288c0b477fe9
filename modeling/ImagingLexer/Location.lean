/-! # Locations and spans

A location is a zero-based line with a zero-based column in bytes. A span is a stretch
of text together with the location of its first byte.
-/

namespace ImagingLexer

structure Location where
  line : Nat
  column : Nat
  deriving DecidableEq, Repr

namespace Location

instance : Ord Location where
  compare a b := (compare a.line b.line).then (compare a.column b.column)

instance : ToString Location where
  toString location := s!"{location.line}:{location.column}"

theorem compare_def (a b : Location) :
    compare a b = (compare a.line b.line).then (compare a.column b.column) := rfl

theorem compare_eq_lt_iff {a b : Location} :
    compare a b = .lt ↔ a.line < b.line ∨ a.line = b.line ∧ a.column < b.column := by
  simp [compare_def, Ordering.then_eq_lt, Nat.compare_eq_lt]

end Location

/-- The bytes from `start` up to `stop`, which is not included. -/
structure Span where
  start : Nat
  stop : Nat
  line : Nat
  column : Nat
  deriving DecidableEq, Repr

namespace Span

def len (span : Span) : Nat := span.stop - span.start

def isEmpty (span : Span) : Bool := span.start = span.stop

def location (span : Span) : Location := ⟨span.line, span.column⟩

end Span

end ImagingLexer
