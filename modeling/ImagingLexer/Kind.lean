import ImagingLexer.Operator

/-! # Kinds of tokens

A kind classifies a token. Operators and keywords have a fixed text; the text of every
other kind varies.
-/

namespace ImagingLexer

inductive Keyword
  | kwIf
  | kwFi
  | kwElse
  | kwWrite
  | kwConsole
  | kwVoid
  deriving DecidableEq, Repr

namespace Keyword

def all : List Keyword := [kwIf, kwFi, kwElse, kwWrite, kwConsole, kwVoid]

theorem mem_all (word : Keyword) : word ∈ all := by
  cases word <;> decide

def name : Keyword → String
  | kwIf => "KwIf"
  | kwFi => "KwFi"
  | kwElse => "KwElse"
  | kwWrite => "KwWrite"
  | kwConsole => "KwConsole"
  | kwVoid => "KwVoid"

end Keyword

inductive Kind
  | intLit
  | floatLit
  | stringLit
  | booleanLit
  | colorConst
  | ident
  | typeName
  | colorOp
  | imageOp
  | operator (op : Operator)
  | keyword (word : Keyword)
  | eof
  | error
  deriving DecidableEq, Repr

namespace Kind

def all : List Kind :=
  [intLit, floatLit, stringLit, booleanLit, colorConst, ident, typeName, colorOp, imageOp]
    ++ Operator.all.map operator ++ Keyword.all.map keyword ++ [eof, error]

theorem mem_all (kind : Kind) : kind ∈ all := by
  cases kind <;> simp [all, Operator.mem_all, Keyword.mem_all]

/-- The text that every token of this kind has, if there is only one. -/
def fixedText : Kind → Option String
  | operator .leftParen => some "("
  | operator .rightParen => some ")"
  | operator .leftSquare => some "["
  | operator .rightSquare => some "]"
  | operator .leftAngle => some "<<"
  | operator .rightAngle => some ">>"
  | operator .plus => some "+"
  | operator .minus => some "-"
  | operator .times => some "*"
  | operator .div => some "/"
  | operator .mod => some "%"
  | operator .and => some "&"
  | operator .or => some "|"
  | operator .bang => some "!"
  | operator .lt => some "<"
  | operator .gt => some ">"
  | operator .le => some "<="
  | operator .ge => some ">="
  | operator .equals => some "=="
  | operator .notEquals => some "!="
  | operator .assign => some "="
  | operator .leftArrow => some "<-"
  | operator .rightArrow => some "->"
  | operator .returns => some "^"
  | operator .semicolon => some ";"
  | operator .comma => some ","
  | keyword .kwIf => some "if"
  | keyword .kwFi => some "fi"
  | keyword .kwElse => some "else"
  | keyword .kwWrite => some "write"
  | keyword .kwConsole => some "console"
  | keyword .kwVoid => some "void"
  | intLit | floatLit | stringLit | booleanLit | colorConst | ident | typeName | colorOp | imageOp
  | eof | error => none

def isKeyword : Kind → Bool
  | keyword _ => true
  | _ => false

def isLiteral : Kind → Bool
  | intLit | floatLit | stringLit | booleanLit | colorConst => true
  | _ => false

/-- How messages speak of a kind: fixed texts in quotes, the others by a noun. -/
def describe (kind : Kind) : String :=
  match kind.fixedText with
  | some text => s!"'{text}'"
  | none =>
    match kind with
    | intLit => "integer literal"
    | floatLit => "float literal"
    | stringLit => "string literal"
    | booleanLit => "boolean literal"
    | colorConst => "color constant"
    | ident => "identifier"
    | typeName => "type name"
    | colorOp => "color operator"
    | imageOp => "image operator"
    | eof => "end of input"
    | _ => "invalid token"

/-- The name under which a kind is exchanged with other programs. -/
def name : Kind → String
  | intLit => "IntLit"
  | floatLit => "FloatLit"
  | stringLit => "StringLit"
  | booleanLit => "BooleanLit"
  | colorConst => "ColorConst"
  | ident => "Ident"
  | typeName => "Type"
  | colorOp => "ColorOp"
  | imageOp => "ImageOp"
  | operator op => op.name
  | keyword word => word.name
  | eof => "Eof"
  | error => "Error"

def ofName? (text : String) : Option Kind :=
  all.find? fun kind => kind.name = text

@[simp] theorem ofName?_name (kind : Kind) : ofName? kind.name = some kind := by
  rcases kind with _ | _ | _ | _ | _ | _ | _ | _ | _ | op | word | _ | _
  case operator => cases op <;> decide
  case keyword => cases word <;> decide
  all_goals decide

end Kind

end ImagingLexer
