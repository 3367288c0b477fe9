import ImagingLexer.Binary32.Rounding
import ImagingLexer.Lexeme
import ImagingLexer.Reserved
import ImagingLexer.Token

/-! # Meanings of lexemes

What a lexeme stands for: nothing, a token of some kind and value, or a fault.
-/

namespace ImagingLexer

inductive Meaning
  | skipped
  | token (kind : Kind) (value : Value)
  | broken (fault : Fault)
  deriving DecidableEq, Repr

namespace Meaning

/-- Integers are at most 2³¹ - 1. -/
def ofInteger (digits : List Char) : Meaning :=
  let value := Nat.ofDigitChars 10 digits 0
  if value ≤ 2147483647 then token .intLit (.int (Int32.ofNat value))
  else broken .integerOutOfRange

def ofDecimal (whole fraction : List Char) : Meaning :=
  match Binary32.ofDecimal? whole fraction with
  | some value => token .floatLit (.float value)
  | none => broken .floatOutOfRange

def ofWord (text : String) : Meaning :=
  match Reserved.lookup text with
  | some .booleanLit => token .booleanLit (.boolean (text = "true"))
  | some kind => token kind .absent
  | none => token .ident .absent

end Meaning

def Lexeme.meaning : Lexeme → Meaning
  | blank _ | comment _ => .skipped
  | operator op => .token (.operator op) .absent
  | integer digits => .ofInteger digits
  | decimal whole fraction => .ofDecimal whole fraction
  | openDecimal _ => .broken .missingFractionDigits
  | word letters => .ofWord (String.ofList letters)
  | quoted content => .token .stringLit (.string (String.ofList content))
  | cutQuoted _ => .broken .illegalStringCharacter
  | openQuoted _ => .broken .unterminatedString
  | stray _ => .broken .illegalCharacter

end ImagingLexer
