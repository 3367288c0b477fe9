import ImagingLexer.Cursor

/-! # Families of cursors

Several cursors read one buffer side by side. Requests are addressed to a cursor by its
number; new cursors are numbered in the order in which they are made.
-/

namespace ImagingLexer

inductive Request
  | next
  | peek
  | peekKind
  | isAtEnd
  | position
  | step
  | collect
  deriving DecidableEq, Repr

inductive Reply
  | taken (taken : Taken)
  | stepped (taken : Option Taken)
  | collected (all : List Taken)
  | kind (kind : Kind)
  | flag (value : Bool)
  | number (value : Nat)

namespace Cursor

variable {buffer : TokenBuffer}

def perform (cursor : Cursor buffer) : Request → Logged (Reply × Cursor buffer)
  | .next => do
    let (taken, moved) ← cursor.next
    pure (.taken taken, moved)
  | .peek => do
    let taken ← cursor.peek
    pure (.taken taken, cursor)
  | .peekKind => pure (.kind cursor.peekKind, cursor)
  | .isAtEnd => pure (.flag cursor.isAtEnd, cursor)
  | .position => pure (.number cursor.position, cursor)
  | .step => do
    let (taken, moved) ← cursor.step
    pure (.stepped taken, moved)
  | .collect => do
    let (all, moved) ← cursor.collect
    pure (.collected all, moved)

def performAll (cursor : Cursor buffer) : List Request → Logged (List Reply × Cursor buffer)
  | [] => pure ([], cursor)
  | request :: requests => do
    let (reply, moved) ← cursor.perform request
    let (replies, last) ← moved.performAll requests
    pure (reply :: replies, last)

end Cursor

inductive Command
  | ask (n : Nat) (request : Request)
  /-- A cursor on the first token. -/
  | fresh
  /-- A copy of a cursor as it stands. -/
  | clone (n : Nat)
  deriving DecidableEq, Repr

/-- A reply, and where the cursor that was asked or made then stands. -/
structure Answer where
  reply : Reply
  position : Nat

abbrev CursorFamily (buffer : TokenBuffer) := Array (Cursor buffer)

namespace CursorFamily

variable {buffer : TokenBuffer}

def start (buffer : TokenBuffer) : CursorFamily buffer := #[.start buffer]

def add (family : CursorFamily buffer) (cursor : Cursor buffer) :
    Answer × CursorFamily buffer :=
  (⟨.number family.size, cursor.position⟩, family.push cursor)

/-- There is no result if no cursor has the number. -/
def exec? (family : CursorFamily buffer) :
    Command → Option (Logged (Answer × CursorFamily buffer))
  | .ask n request =>
    if h : n < family.size then
      some do
        let (reply, moved) ← family[n].perform request
        pure (⟨reply, moved.position⟩, family.set n moved)
    else none
  | .fresh => some (pure (family.add (.start buffer)))
  | .clone n => (family[n]?).map fun cursor => pure (family.add cursor)

def execAll? (family : CursorFamily buffer) (commands : List Command) :
    Option (Logged (List Answer × CursorFamily buffer)) :=
  Logged.execAll? exec? family commands

end CursorFamily

end ImagingLexer
