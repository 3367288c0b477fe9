import ImagingLexer.Record
import ImagingLexer.TokenBuffer

/-! # Cursors

A cursor reads the tokens of a buffer one after the other and owns nothing but its place.
A broken lexeme surfaces as a diagnostic when it is read. The cursor stays on the last
token, which marks the end of the source; as an iterator it yields that token once.
-/

namespace ImagingLexer

abbrev Taken := Except Diagnostic Token

/-- The token, or its diagnostic, which is then recorded. -/
def Token.surface (token : Token) : Logged Taken :=
  match token.diagnostic? with
  | none => pure (.ok token)
  | some diagnostic => do
    Logged.record (.faultSurfaced token.span.start diagnostic.fault)
    pure (.error diagnostic)

structure Cursor (buffer : TokenBuffer) where
  index : Fin buffer.tokens.size
  /-- The iterator has yielded the end of the source. -/
  finished : Bool
  deriving DecidableEq, Repr

namespace Cursor

variable {buffer : TokenBuffer}

def ofIndex (index : Fin buffer.tokens.size) : Cursor buffer := ⟨index, false⟩

def start (buffer : TokenBuffer) : Cursor buffer := ofIndex ⟨0, buffer.size_pos⟩

def position (cursor : Cursor buffer) : Nat := cursor.index

def current (cursor : Cursor buffer) : Token := buffer.tokens[cursor.index]

def peekKind (cursor : Cursor buffer) : Kind := cursor.current.kind

def isAtEnd (cursor : Cursor buffer) : Bool := cursor.peekKind = .eof

def advance (cursor : Cursor buffer) : Cursor buffer :=
  if h : cursor.index + 1 < buffer.tokens.size then
    { cursor with index := ⟨cursor.index + 1, h⟩ }
  else cursor

def peek (cursor : Cursor buffer) : Logged Taken := cursor.current.surface

def next (cursor : Cursor buffer) : Logged (Taken × Cursor buffer) := do
  let taken ← cursor.peek
  pure (taken, cursor.advance)

def step (cursor : Cursor buffer) : Logged (Option Taken × Cursor buffer) := do
  if cursor.finished then
    pure (none, cursor)
  else
    let (taken, moved) ← { cursor with finished := cursor.isAtEnd }.next
    pure (some taken, moved)

/-- How many tokens the iterator has yet to yield. -/
def remaining (cursor : Cursor buffer) : Nat :=
  if cursor.finished then 0 else buffer.tokens.size - cursor.index

theorem index_succ_lt (cursor : Cursor buffer) (h : cursor.isAtEnd = false) :
    cursor.index + 1 < buffer.tokens.size := by
  have := cursor.index.isLt
  have : ¬ (cursor.index : Nat) + 1 = buffer.tokens.size := fun hlast => by
    have := buffer.kind_getElem_last cursor.index.isLt hlast
    simp [isAtEnd, peekKind, current, this] at h
  omega

@[simp] theorem finished_advance (cursor : Cursor buffer) :
    cursor.advance.finished = cursor.finished := by
  unfold advance
  split <;> rfl

@[simp] theorem next_value_snd (cursor : Cursor buffer) :
    cursor.next.value.2 = cursor.advance := rfl

theorem remaining_step_lt {cursor : Cursor buffer} {taken : Taken}
    (h : cursor.step.value.1 = some taken) :
    cursor.step.value.2.remaining < cursor.remaining := by
  have hlt := cursor.index.isLt
  cases hfinished : cursor.finished with
  | true => simp [step, hfinished] at h
  | false =>
    cases hend : cursor.isAtEnd with
    | true =>
      simp only [step, remaining, hfinished, hend, finished_advance, next_value_snd,
        Bool.false_eq_true, if_false, if_true, Logged.value_bind, Logged.value_pure]
      omega
    | false =>
      have := cursor.index_succ_lt hend
      simp only [step, remaining, hfinished, hend, advance, next_value_snd, this,
        Bool.false_eq_true, if_false, dif_pos, Logged.value_bind, Logged.value_pure]
      omega

def collect (cursor : Cursor buffer) : Logged (List Taken × Cursor buffer) :=
  match h : cursor.step with
  | ⟨(none, moved), records⟩ => ⟨([], moved), records⟩
  | ⟨(some taken, moved), records⟩ =>
    have : moved.remaining < cursor.remaining := by
      have := @remaining_step_lt buffer cursor taken (by rw [h])
      rwa [h] at this
    let rest := moved.collect
    ⟨(taken :: rest.value.1, rest.value.2), records ++ rest.records⟩
termination_by cursor.remaining

end Cursor

end ImagingLexer
