/-! # Faults

What can be wrong with a lexeme.
-/

namespace ImagingLexer

inductive Fault
  | illegalCharacter
  | missingFractionDigits
  | integerOutOfRange
  | floatOutOfRange
  | illegalStringCharacter
  | unterminatedString
  deriving DecidableEq, Repr

namespace Fault

def all : List Fault :=
  [illegalCharacter, missingFractionDigits, integerOutOfRange, floatOutOfRange,
    illegalStringCharacter, unterminatedString]

theorem mem_all (fault : Fault) : fault ∈ all := by
  cases fault <;> decide

def message : Fault → String
  | illegalCharacter => "illegal character"
  | missingFractionDigits => "malformed numeric literal: expected a digit after '.'"
  | integerOutOfRange => "malformed numeric literal: integer out of range"
  | floatOutOfRange => "malformed numeric literal: float out of range"
  | illegalStringCharacter => "malformed string literal: illegal character"
  | unterminatedString => "unterminated string literal"

def isMalformedNumber : Fault → Bool
  | missingFractionDigits | integerOutOfRange | floatOutOfRange => true
  | _ => false

def isMalformedString : Fault → Bool
  | illegalStringCharacter | unterminatedString => true
  | _ => false

def name : Fault → String
  | illegalCharacter => "IllegalCharacter"
  | missingFractionDigits => "MissingFractionDigits"
  | integerOutOfRange => "IntegerOutOfRange"
  | floatOutOfRange => "FloatOutOfRange"
  | illegalStringCharacter => "IllegalStringCharacter"
  | unterminatedString => "UnterminatedString"

def ofName? (text : String) : Option Fault :=
  all.find? fun fault => fault.name = text

@[simp] theorem ofName?_name (fault : Fault) : ofName? fault.name = some fault := by
  cases fault <;> decide

end Fault

end ImagingLexer
