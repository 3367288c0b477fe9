import ImagingLexer.Alphabet
import ImagingLexer.Location

/-! # Line index

The offsets of the line feeds of a source, kept so that the line of an offset is found
by bisection. A source that does not end in a line feed has its length appended as the
end of its last line; that entry bounds a line but begins none.
-/

namespace ImagingLexer

def newlineOffsets (offset : Nat) : List Char → List Nat
  | [] => []
  | c :: text =>
    if c = '\n' then offset :: newlineOffsets (offset + c.utf8Size) text
    else newlineOffsets (offset + c.utf8Size) text

structure LineIndex where
  breaks : Array Nat
  /-- How many of the breaks are line feeds. -/
  newlines : Nat
  newlines_le : newlines ≤ breaks.size
  deriving DecidableEq, Repr

namespace LineIndex

def empty : LineIndex := ⟨#[], 0, Nat.zero_le _⟩

def ofText (text : List Char) : LineIndex :=
  let newlines := newlineOffsets 0 text
  let breaks := if text.getLast? = some '\n' then newlines else newlines ++ [byteLength text]
  ⟨breaks.toArray, newlines.length, by
    simp only [List.size_toArray, breaks]
    split <;> simp⟩

def ofSource (source : String) : LineIndex := ofText source.toList

def lineCount (index : LineIndex) : Nat := index.breaks.size

/-- Where the entries from `lo` up to `hi` change from below `offset` to not below it. -/
def bisect (breaks : Array Nat) (offset lo hi : Nat) (h : hi ≤ breaks.size) : Nat :=
  if hlt : lo < hi then
    if breaks[(lo + hi) / 2] < offset then bisect breaks offset ((lo + hi) / 2 + 1) hi h
    else bisect breaks offset lo ((lo + hi) / 2) (by omega)
  else lo
termination_by hi - lo

theorem bisect_le {breaks : Array Nat} {offset lo hi : Nat} (h : hi ≤ breaks.size)
    (hle : lo ≤ hi) : bisect breaks offset lo hi h ≤ hi := by
  fun_induction bisect breaks offset lo hi h with
  | case1 lo hi h hlt hbelow ih => exact ih (by omega)
  | case2 lo hi h hlt hnot ih => exact Nat.le_trans (ih (by omega)) (by omega)
  | case3 lo hi h hlt => exact hle

def line (index : LineIndex) (offset : Nat) : Nat :=
  bisect index.breaks offset 0 index.newlines index.newlines_le

theorem line_le (index : LineIndex) (offset : Nat) : index.line offset ≤ index.newlines :=
  bisect_le _ (Nat.zero_le _)

/-- The location of `offset` when its line is known. On the first line the column is the
offset itself; on a later one it counts from the byte after the preceding line feed. -/
def locationOn (index : LineIndex) (offset : Nat) :
    (line : Nat) → line ≤ index.newlines → Location
  | 0, _ => ⟨0, offset⟩
  | line + 1, h =>
    have : line < index.breaks.size := Nat.lt_of_lt_of_le h index.newlines_le
    ⟨line + 1, offset - (index.breaks[line] + 1)⟩

def location (index : LineIndex) (offset : Nat) : Location :=
  index.locationOn offset (index.line offset) (index.line_le offset)

@[simp] theorem line_locationOn (index : LineIndex) (offset : Nat) {line : Nat}
    (h : line ≤ index.newlines) : (index.locationOn offset line h).line = line := by
  cases line <;> rfl

@[simp] theorem line_location (index : LineIndex) (offset : Nat) :
    (index.location offset).line = index.line offset :=
  index.line_locationOn offset _

def lineStart? (index : LineIndex) : Nat → Option Nat
  | 0 => some 0
  | line + 1 =>
    if h : line < index.newlines then
      have : line < index.breaks.size := Nat.lt_of_lt_of_le h index.newlines_le
      some (index.breaks[line] + 1)
    else none

end LineIndex

end ImagingLexer
