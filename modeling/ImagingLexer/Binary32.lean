/-! # Binary32 words

IEEE 754 single-precision numbers as 32-bit words: the top bit is the sign, the next
eight are the exponent field and the low 23 the fraction.
-/

namespace ImagingLexer

structure Binary32 where
  bits : UInt32
  deriving DecidableEq, Repr

namespace Binary32

def isNegative (x : Binary32) : Bool := 0x80000000 ≤ x.bits.toNat

def field (x : Binary32) : Nat := x.bits.toNat / 0x800000 % 0x100

def fraction (x : Binary32) : Nat := x.bits.toNat % 0x800000

def isFinite (x : Binary32) : Bool := x.field ≠ 255

def isNaN (x : Binary32) : Bool := x.field = 255 && x.fraction ≠ 0

def isZero (x : Binary32) : Bool := x.field = 0 && x.fraction = 0

/-- Numeric equality: a NaN equals nothing, the two zeros equal each other. -/
instance : BEq Binary32 where
  beq x y := !x.isNaN && !y.isNaN && (x.bits = y.bits || x.isZero && y.isZero)

theorem beq_def (x y : Binary32) :
    (x == y) = (!x.isNaN && !y.isNaN && (x.bits = y.bits || x.isZero && y.isZero)) := rfl

theorem beq_self_iff {x : Binary32} : (x == x) = true ↔ x.isNaN = false := by
  simp [beq_def]

theorem isNaN_eq_false_of_isFinite {x : Binary32} (h : x.isFinite = true) :
    x.isNaN = false := by
  simp_all [isFinite, isNaN]

end Binary32

end ImagingLexer
