import ImagingLexer.Cursor
import ImagingLexer.Scan

/-! # Token readers

A reader owns the tokens of a source together with one place among them, for a parser
that wants a single value to read from.
-/

namespace ImagingLexer

structure TokenReader where
  buffer : TokenBuffer
  index : Fin buffer.tokens.size

namespace TokenReader

def ofSource (source : String) : Logged TokenReader := do
  let buffer ← tokenize source
  pure ⟨buffer, ⟨0, buffer.size_pos⟩⟩

def cursor (reader : TokenReader) : Cursor reader.buffer := .ofIndex reader.index

def position (reader : TokenReader) : Nat := reader.index

def peek (reader : TokenReader) : Logged Taken := reader.cursor.peek

def next (reader : TokenReader) : Logged (Taken × TokenReader) := do
  let (taken, moved) ← reader.cursor.next
  pure (taken, { reader with index := moved.index })

/-- Give up reading and keep the tokens. -/
def intoBuffer (reader : TokenReader) : TokenBuffer := reader.buffer

end TokenReader

end ImagingLexer
