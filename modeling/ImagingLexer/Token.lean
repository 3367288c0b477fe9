import ImagingLexer.Binary32
import ImagingLexer.Fault
import ImagingLexer.Kind
import ImagingLexer.Location

/-! # Tokens

A token is a classified stretch of the source together with its decoded value. Broken
stretches are tokens too; a diagnostic says what is wrong with one. A value is handed
out only if both the kind of the token and the form of its value are the expected ones.
-/

namespace ImagingLexer

inductive Value
  | absent
  | int (value : Int32)
  | float (value : Binary32)
  | boolean (value : Bool)
  | string (content : String)
  | error (fault : Fault)
  deriving BEq, DecidableEq, Repr

structure Token where
  kind : Kind
  text : String
  span : Span
  value : Value
  deriving BEq, DecidableEq, Repr

/-- A token was asked for a value that its kind does not have. -/
structure WrongKind where
  expected : Kind
  found : Kind
  deriving DecidableEq, Repr

def WrongKind.message (error : WrongKind) : String :=
  s!"{error.found.describe} has no {error.expected.describe} value"

structure Diagnostic where
  fault : Fault
  text : String
  location : Location
  deriving DecidableEq, Repr

def Diagnostic.message (diagnostic : Diagnostic) : String :=
  let ⟨fault, text, ⟨line, column⟩⟩ := diagnostic
  s!"Lexer error at line {line}, column {column}: {fault.message} in `{text}`"

namespace Token

def intValue (token : Token) : Except WrongKind Int32 :=
  match token.kind, token.value with
  | .intLit, .int value => .ok value
  | _, _ => .error ⟨.intLit, token.kind⟩

def floatValue (token : Token) : Except WrongKind Binary32 :=
  match token.kind, token.value with
  | .floatLit, .float value => .ok value
  | _, _ => .error ⟨.floatLit, token.kind⟩

def booleanValue (token : Token) : Except WrongKind Bool :=
  match token.kind, token.value with
  | .booleanLit, .boolean value => .ok value
  | _, _ => .error ⟨.booleanLit, token.kind⟩

def stringValue (token : Token) : Except WrongKind String :=
  match token.kind, token.value with
  | .stringLit, .string content => .ok content
  | _, _ => .error ⟨.stringLit, token.kind⟩

/-- What the value of a token says is wrong with it, whatever its kind. -/
def fault? (token : Token) : Option Fault :=
  match token.value with
  | .error fault => some fault
  | _ => none

def diagnostic? (token : Token) : Option Diagnostic :=
  token.fault?.map fun fault => ⟨fault, token.text, token.span.location⟩

theorem fault?_eq_some_iff {token : Token} {fault : Fault} :
    token.fault? = some fault ↔ token.value = .error fault := by
  unfold fault?
  split <;> simp_all

@[simp] theorem isSome_diagnostic? (token : Token) :
    token.diagnostic?.isSome = token.fault?.isSome := by
  simp [diagnostic?]

end Token

end ImagingLexer
