/-! # Operators

Operators and punctuation. Each has one spelling, of one or two characters, and is
recovered from it.
-/

namespace ImagingLexer

inductive Operator
  | leftParen
  | rightParen
  | leftSquare
  | rightSquare
  | leftAngle
  | rightAngle
  | plus
  | minus
  | times
  | div
  | mod
  | and
  | or
  | bang
  | lt
  | gt
  | le
  | ge
  | equals
  | notEquals
  | assign
  | leftArrow
  | rightArrow
  | returns
  | semicolon
  | comma
  deriving DecidableEq, Repr

namespace Operator

def all : List Operator :=
  [leftParen, rightParen, leftSquare, rightSquare, leftAngle, rightAngle, plus, minus, times,
    div, mod, and, or, bang, lt, gt, le, ge, equals, notEquals, assign, leftArrow, rightArrow,
    returns, semicolon, comma]

theorem mem_all (op : Operator) : op ∈ all := by
  cases op <;> decide

def chars : Operator → List Char
  | leftParen => ['(']
  | rightParen => [')']
  | leftSquare => ['[']
  | rightSquare => [']']
  | leftAngle => ['<', '<']
  | rightAngle => ['>', '>']
  | plus => ['+']
  | minus => ['-']
  | times => ['*']
  | div => ['/']
  | mod => ['%']
  | and => ['&']
  | or => ['|']
  | bang => ['!']
  | lt => ['<']
  | gt => ['>']
  | le => ['<', '=']
  | ge => ['>', '=']
  | equals => ['=', '=']
  | notEquals => ['!', '=']
  | assign => ['=']
  | leftArrow => ['<', '-']
  | rightArrow => ['-', '>']
  | returns => ['^']
  | semicolon => [';']
  | comma => [',']

def ofChars? (text : List Char) : Option Operator :=
  all.find? fun op => op.chars = text

theorem chars_of_ofChars? {text : List Char} {op : Operator} (h : ofChars? text = some op) :
    op.chars = text := by
  simpa using List.find?_some h

@[simp] theorem ofChars?_chars (op : Operator) : ofChars? op.chars = some op := by
  cases op <;> decide

theorem chars_injective {a b : Operator} (h : a.chars = b.chars) : a = b := by
  have := ofChars?_chars a
  rw [h, ofChars?_chars] at this
  exact (Option.some.inj this).symm

theorem length_chars (op : Operator) : op.chars.length = 1 ∨ op.chars.length = 2 := by
  cases op <;> decide

theorem chars_ne_nil (op : Operator) : op.chars ≠ [] := by
  rcases length_chars op with h | h <;> exact List.ne_nil_of_length_eq_add_one h

def name : Operator → String
  | leftParen => "LParen"
  | rightParen => "RParen"
  | leftSquare => "LSquare"
  | rightSquare => "RSquare"
  | leftAngle => "LAngle"
  | rightAngle => "RAngle"
  | plus => "Plus"
  | minus => "Minus"
  | times => "Times"
  | div => "Div"
  | mod => "Mod"
  | and => "And"
  | or => "Or"
  | bang => "Bang"
  | lt => "Lt"
  | gt => "Gt"
  | le => "Le"
  | ge => "Ge"
  | equals => "Equals"
  | notEquals => "NotEquals"
  | assign => "Assign"
  | leftArrow => "LArrow"
  | rightArrow => "RArrow"
  | returns => "Return"
  | semicolon => "Semi"
  | comma => "Comma"

end Operator

end ImagingLexer
