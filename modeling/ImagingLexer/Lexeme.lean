import ImagingLexer.Alphabet
import ImagingLexer.Operator

/-! # Lexemes

A lexeme is one piece of source text, split into the parts that matter for its meaning.
The pieces of a source in order spell the source again, so nothing is lost in blanks,
comments and broken lexemes.
-/

namespace ImagingLexer

inductive Lexeme
  | blank (c : Char)
  /-- A `#` and the rest of its line. -/
  | comment (body : List Char)
  | operator (op : Operator)
  | integer (digits : List Char)
  | decimal (whole fraction : List Char)
  /-- Digits and a point that no digit follows. -/
  | openDecimal (whole : List Char)
  | word (letters : List Char)
  | quoted (content : List Char)
  /-- A string cut short by a character that it may not contain. -/
  | cutQuoted (content : List Char)
  /-- A string cut short by the end of the source. -/
  | openQuoted (content : List Char)
  /-- A character that begins no other lexeme. -/
  | stray (c : Char)
  deriving DecidableEq, Repr

namespace Lexeme

def text : Lexeme → List Char
  | blank c => [c]
  | comment body => '#' :: body
  | operator op => op.chars
  | integer digits => digits
  | decimal whole fraction => whole ++ '.' :: fraction
  | openDecimal whole => whole ++ ['.']
  | word letters => letters
  | quoted content => '"' :: content ++ ['"']
  | cutQuoted content => '"' :: content
  | openQuoted content => '"' :: content
  | stray c => [c]

end Lexeme

end ImagingLexer
