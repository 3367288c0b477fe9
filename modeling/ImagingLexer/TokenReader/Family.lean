import ImagingLexer.TokenReader

/-! # Families of readers

Readers are numbered in the order in which they are made. A reader that has been turned
into its buffer keeps its number and answers nothing more.
-/

namespace ImagingLexer

inductive ReaderCommand
  | next (n : Nat)
  | peek (n : Nat)
  | position (n : Nat)
  | buffer (n : Nat)
  | clone (n : Nat)
  | intoBuffer (n : Nat)
  deriving DecidableEq, Repr

inductive ReaderReply
  | taken (taken : Taken)
  | number (value : Nat)
  | buffer (buffer : TokenBuffer)

/-- A reply, and where the reader that was asked then stands, if it still reads. -/
structure ReaderAnswer where
  reply : ReaderReply
  position : Option Nat

abbrev ReaderFamily := Array (Option TokenReader)

namespace ReaderFamily

def start (source : String) : Logged ReaderFamily := do
  let reader ← TokenReader.ofSource source
  pure #[some reader]

def reader? (family : ReaderFamily) (n : Nat) : Option TokenReader := family[n]?.join

def exec? (family : ReaderFamily) : ReaderCommand → Option (Logged (ReaderAnswer × ReaderFamily))
  | .next n => do
    let reader ← family.reader? n
    some do
      let (taken, moved) ← reader.next
      pure (⟨.taken taken, some moved.position⟩, family.setIfInBounds n (some moved))
  | .peek n => do
    let reader ← family.reader? n
    some do
      let taken ← reader.peek
      pure (⟨.taken taken, some reader.position⟩, family)
  | .position n => do
    let reader ← family.reader? n
    some (pure (⟨.number reader.position, some reader.position⟩, family))
  | .buffer n => do
    let reader ← family.reader? n
    some (pure (⟨.buffer reader.buffer, some reader.position⟩, family))
  | .clone n => do
    let reader ← family.reader? n
    some (pure (⟨.number family.size, some reader.position⟩, family.push (some reader)))
  | .intoBuffer n => do
    let reader ← family.reader? n
    some (pure (⟨.buffer reader.intoBuffer, none⟩, family.setIfInBounds n none))

def execAll? (family : ReaderFamily) (commands : List ReaderCommand) :
    Option (Logged (List ReaderAnswer × ReaderFamily)) :=
  Logged.execAll? exec? family commands

end ReaderFamily

end ImagingLexer
