import ImagingLexer.Lexeme.First
import ImagingLexer.Lexeme.Meaning
import ImagingLexer.Record
import ImagingLexer.TokenBuffer

/-! # Scanning

A scan takes one lexeme after the other off a text until nothing is left. It never
fails: a broken lexeme becomes an error token, is counted and recorded, and the scan goes
on after it.
-/

namespace ImagingLexer

def Token.cover (index : LineIndex) (offset : Nat) (text : List Char) (kind : Kind)
    (value : Value) : Token :=
  let location := index.location offset
  ⟨kind, String.ofList text,
    ⟨offset, offset + byteLength text, location.line, location.column⟩, value⟩

structure Scan where
  /-- The number of bytes before `rest`. -/
  offset : Nat
  rest : List Char
  tokens : Array Token
  errorCount : Nat
  records : Array Record
  deriving DecidableEq

namespace Scan

def start (text : List Char) : Scan := ⟨0, text, #[], 0, #[]⟩

/-- Take a lexeme off, leaving `rest`. -/
def accept (index : LineIndex) (scan : Scan) (lexeme : Lexeme) (rest : List Char) : Scan :=
  let ⟨offset, _, tokens, errorCount, records⟩ := scan
  let text := lexeme.text
  let stop := offset + byteLength text
  match lexeme.meaning with
  | .skipped => ⟨stop, rest, tokens, errorCount, records⟩
  | .token kind value =>
    ⟨stop, rest, tokens.push (.cover index offset text kind value), errorCount, records⟩
  | .broken fault =>
    ⟨stop, rest, tokens.push (.cover index offset text .error (.error fault)), errorCount + 1,
      records.push (.faultRecorded offset (String.ofList text) fault)⟩

@[simp] theorem rest_accept (index : LineIndex) (scan : Scan) (lexeme : Lexeme)
    (rest : List Char) : (scan.accept index lexeme rest).rest = rest := by
  unfold accept
  dsimp only
  split <;> rfl

@[simp] theorem offset_accept (index : LineIndex) (scan : Scan) (lexeme : Lexeme)
    (rest : List Char) :
    (scan.accept index lexeme rest).offset = scan.offset + byteLength lexeme.text := by
  unfold accept
  dsimp only
  split <;> rfl

def step (index : LineIndex) (scan : Scan) : Scan :=
  match scan.rest with
  | [] => scan
  | c :: rest =>
    let found := Lexeme.first c rest
    scan.accept index found.1 found.2

theorem step_of_rest_eq_cons (index : LineIndex) {scan : Scan} {c : Char} {rest : List Char}
    (h : scan.rest = c :: rest) :
    scan.step index =
      scan.accept index (Lexeme.first c rest).1 (Lexeme.first c rest).2 := by
  simp [step, h]

theorem length_rest_step_lt (index : LineIndex) {scan : Scan} (h : scan.rest ≠ []) :
    (scan.step index).rest.length < scan.rest.length := by
  obtain ⟨c, rest, hrest⟩ := List.exists_cons_of_ne_nil h
  rw [step_of_rest_eq_cons index hrest, rest_accept, hrest]
  exact Lexeme.length_first_lt c rest

def run (index : LineIndex) (scan : Scan) : Scan :=
  if scan.rest = [] then scan else run index (scan.step index)
termination_by scan.rest.length
decreasing_by exact length_rest_step_lt index (by assumption)

@[simp] theorem rest_run (index : LineIndex) (scan : Scan) : (scan.run index).rest = [] := by
  fun_induction run index scan with
  | case1 scan h => exact h
  | case2 scan h ih => exact ih

def finish (index : LineIndex) (scan : Scan) : TokenBuffer where
  tokens := scan.tokens.push (.cover index scan.offset [] .eof .absent)
  lineIndex := index
  errorCount := scan.errorCount
  ends := ⟨_, Array.back?_push, rfl⟩

end Scan

/-- All tokens of a source, with the records of its scan. -/
def tokenize (source : String) : Logged TokenBuffer :=
  let index := LineIndex.ofSource source
  let scan := (Scan.start source.toList).run index
  let buffer := scan.finish index
  ⟨buffer,
    [.scanOpened (byteLength source.toList), .scanEntered] ++ scan.records.toList
      ++ [.scanFinished buffer.size buffer.errorCount, .scanExited]⟩

end ImagingLexer
