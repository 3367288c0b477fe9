import ImagingLexer.Proofs.Cursor.Independence
import ImagingLexer.Proofs.Equality
import ImagingLexer.TokenReader.Family

/-! # Readers and cursors

A reader makes a cursor anew for whatever it is asked and keeps only where that cursor ends up.
It answers all the same as one cursor that lasts, a copy of it as a copy of that cursor, and it
never gives up another buffer than the one it was made with.
-/

namespace ImagingLexer

namespace ReaderCommand

/-- The command of a cursor that reads, or is copied, in place of the reader. -/
def twin? : ReaderCommand → Option Command
  | next n => some (.ask n .next)
  | peek n => some (.ask n .peek)
  | position n => some (.ask n .position)
  | clone n => some (.clone n)
  | buffer _ | intoBuffer _ => none

def target : ReaderCommand → Nat
  | next n | peek n | position n | buffer n | clone n | intoBuffer n => n

def readingAfter (reading : List Bool) : ReaderCommand → List Bool
  | clone _ => reading ++ [true]
  | intoBuffer n => reading.set n false
  | next _ | peek _ | position _ | buffer _ => reading

def addressed (reading : List Bool) : List ReaderCommand → Bool
  | [] => true
  | command :: commands =>
    reading[command.target]? = some true && addressed (command.readingAfter reading) commands

end ReaderCommand

inductive ReaderAnswer.Echoes : ReaderAnswer → Answer → Prop
  | taken (taken : Taken) (position : Nat) :
    Echoes ⟨.taken taken, some position⟩ ⟨.taken taken, position⟩
  | number (value position : Nat) :
    Echoes ⟨.number value, some position⟩ ⟨.number value, position⟩

/-- What readers answer to commands, next to what cursors answer to the twins of these commands.
The commands without a twin are answered with the buffer. -/
inductive Agreement (buffer : TokenBuffer) :
    List ReaderCommand → List ReaderAnswer → List Answer → Prop
  | nil : Agreement buffer [] [] []
  | twin {command : ReaderCommand} {commands : List ReaderCommand} {answer : ReaderAnswer}
    {answers : List ReaderAnswer} {twin : Command} {echoed : Answer} {others : List Answer} :
    command.twin? = some twin → answer.Echoes echoed → Agreement buffer commands answers others →
    Agreement buffer (command :: commands) (answer :: answers) (echoed :: others)
  | buffer {command : ReaderCommand} {commands : List ReaderCommand} {answer : ReaderAnswer}
    {answers : List ReaderAnswer} {others : List Answer} :
    command.twin? = none → answer.reply = .buffer buffer →
    Agreement buffer commands answers others →
    Agreement buffer (command :: commands) (answer :: answers) others

namespace ReaderFamily

variable {buffer : TokenBuffer} {reading : List Bool} {readers : ReaderFamily}
  {cursors : CursorFamily buffer}

section Slots

theorem reader?_setIfInBounds {n : Nat} (h : n < readers.size) (slot : Option TokenReader)
    (m : Nat) : reader? (readers.setIfInBounds n slot) m =
      if n = m then slot else readers.reader? m := by
  unfold reader?
  rw [Array.getElem?_setIfInBounds]
  split <;> rfl

theorem reader?_push (slot : Option TokenReader) (m : Nat) :
    reader? (readers.push slot) m = if m = readers.size then slot else readers.reader? m := by
  unfold reader?
  rw [Array.getElem?_push]
  split <;> rfl

theorem advance_ofIndex (index : Fin buffer.tokens.size) :
    (Cursor.ofIndex index).advance = .ofIndex (Cursor.ofIndex index).advance.index := by
  unfold Cursor.advance
  split <;> rfl

end Slots

/-- A reader that still reads stands where the cursor with its number stands, and its buffer is
that of the cursors. -/
structure Mirrors (reading : List Bool) (readers : ReaderFamily) (cursors : CursorFamily buffer) :
    Prop where
  size_readers : readers.size = reading.length
  size_cursors : cursors.size = reading.length
  index_eq : ∀ n, reading[n]? = some true → ∃ index : Fin buffer.tokens.size,
    readers.reader? n = some ⟨buffer, index⟩ ∧ cursors[n]? = some (.ofIndex index)

theorem mirrors_start (source : String) :
    Mirrors [true] (start source).value (.start (tokenize source).value) where
  size_readers := rfl
  size_cursors := rfl
  index_eq n h := by
    obtain rfl : n = 0 := by simpa using (List.getElem?_eq_some_iff.1 h).1
    exact ⟨_, rfl, rfl⟩

namespace Mirrors

theorem move (h : Mirrors reading readers cursors) {n : Nat} (index : Fin buffer.tokens.size)
    {readers' : ReaderFamily} {cursors' : CursorFamily buffer}
    (hsize : readers'.size = readers.size) (hsize' : cursors'.size = cursors.size)
    (hreaders : ∀ m, readers'.reader? m =
      if n = m then some ⟨buffer, index⟩ else readers.reader? m)
    (hcursors : ∀ m : Nat, cursors'[m]? = if n = m then some (.ofIndex index) else cursors[m]?) :
    Mirrors reading readers' cursors' where
  size_readers := hsize.trans h.size_readers
  size_cursors := hsize'.trans h.size_cursors
  index_eq m hm := by
    rw [hreaders, hcursors]
    split
    · exact ⟨index, rfl, rfl⟩
    · exact h.index_eq m hm

theorem clone (h : Mirrors reading readers cursors) (index : Fin buffer.tokens.size) :
    Mirrors (reading ++ [true]) (readers.push (some ⟨buffer, index⟩))
      (cursors.push (.ofIndex index)) where
  size_readers := by simp [h.size_readers]
  size_cursors := by simp [h.size_cursors]
  index_eq m hm := by
    rw [reader?_push, Array.getElem?_push, h.size_readers, h.size_cursors]
    split
    next => exact ⟨index, rfl, rfl⟩
    next hne =>
      have hlt := (List.getElem?_eq_some_iff.1 hm).1
      rw [List.length_append, List.length_singleton] at hlt
      rw [List.getElem?_append_left (by omega)] at hm
      exact h.index_eq m hm

theorem intoBuffer (h : Mirrors reading readers cursors) {n : Nat} (hn : n < reading.length) :
    Mirrors (reading.set n false) (readers.setIfInBounds n none) cursors where
  size_readers := by simp [h.size_readers]
  size_cursors := by simp [h.size_cursors]
  index_eq m hm := by
    have hne : n ≠ m := by
      rintro rfl
      simp [hn] at hm
    rw [List.getElem?_set_ne hne] at hm
    rw [reader?_setIfInBounds (h.size_readers ▸ hn), if_neg hne]
    exact h.index_eq m hm

theorem exec?_twin (h : Mirrors reading readers cursors) {command : ReaderCommand}
    {twin : Command} (hreads : reading[command.target]? = some true)
    (htwin : command.twin? = some twin) :
    ∃ step echoed, readers.exec? command = some step ∧ cursors.exec? twin = some echoed ∧
      step.value.1.Echoes echoed.value.1 ∧ step.records = echoed.records ∧
      Mirrors (command.readingAfter reading) step.value.2 echoed.value.2 := by
  obtain ⟨index, hreader, hcursor⟩ := h.index_eq _ hreads
  -- What is asked leaves the reader in its place, except for the next token.
  have hstays (m : Nat) : readers.reader? m =
      if command.target = m then some ⟨buffer, index⟩ else readers.reader? m := by
    split
    next heq => exact heq ▸ hreader
    next => rfl
  cases command with
  | next n =>
    cases htwin
    obtain ⟨echoed, hechoed, hanswer, hrecords, hsize, hget⟩ :=
      CursorFamily.exec?_ask hcursor .next
    refine ⟨_, echoed, congrArg (Option.bind · _) hreader, hechoed, ?_, ?_, ?_⟩
    · rw [hanswer]
      exact .taken ..
    · rw [hrecords]
      simp [TokenReader.next, Cursor.perform, TokenReader.cursor]
    · have hn : n < readers.size := h.size_readers ▸ (List.getElem?_eq_some_iff.1 hreads).1
      have hmoved : ((Cursor.ofIndex index).perform .next).value.2 =
          .ofIndex (Cursor.ofIndex index).advance.index := advance_ofIndex index
      rw [hmoved] at hget
      exact h.move _ (Array.size_setIfInBounds ..) hsize (reader?_setIfInBounds hn _) hget
  | peek n =>
    cases htwin
    obtain ⟨echoed, hechoed, hanswer, hrecords, hsize, hget⟩ :=
      CursorFamily.exec?_ask hcursor .peek
    refine ⟨_, echoed, congrArg (Option.bind · _) hreader, hechoed, ?_, ?_, ?_⟩
    · rw [hanswer]
      exact .taken ..
    · exact hrecords.symm
    · exact h.move index rfl hsize hstays hget
  | position n =>
    cases htwin
    obtain ⟨echoed, hechoed, hanswer, hrecords, hsize, hget⟩ :=
      CursorFamily.exec?_ask hcursor .position
    refine ⟨_, echoed, congrArg (Option.bind · _) hreader, hechoed, ?_, ?_, ?_⟩
    · rw [hanswer]
      exact .number ..
    · exact hrecords.symm
    · exact h.move index rfl hsize hstays hget
  | clone n =>
    cases htwin
    refine ⟨_, _, congrArg (Option.bind · _) hreader, congrArg (Option.map _) hcursor, ?_, rfl,
      h.clone index⟩
    simp only [CursorFamily.add, h.size_cursors]
    rw [← h.size_readers]
    exact .number ..
  | buffer n | intoBuffer n => cases htwin

theorem exec?_own (h : Mirrors reading readers cursors) {command : ReaderCommand}
    (hreads : reading[command.target]? = some true) (htwin : command.twin? = none) :
    ∃ step, readers.exec? command = some step ∧ step.value.1.reply = .buffer buffer ∧
      step.records = [] ∧ Mirrors (command.readingAfter reading) step.value.2 cursors := by
  obtain ⟨index, hreader, -⟩ := h.index_eq _ hreads
  cases command with
  | buffer n => exact ⟨_, congrArg (Option.bind · _) hreader, rfl, rfl, h⟩
  | intoBuffer n =>
    have hn := (List.getElem?_eq_some_iff.1 hreads).1
    exact ⟨_, congrArg (Option.bind · _) hreader, rfl, rfl, h.intoBuffer hn⟩
  | next n | peek n | position n | clone n => cases htwin

theorem execAll?_twin (h : Mirrors reading readers cursors) {commands : List ReaderCommand}
    (haddressed : ReaderCommand.addressed reading commands = true) :
    ∃ run echoed, readers.execAll? commands = some run ∧
      cursors.execAll? (commands.filterMap ReaderCommand.twin?) = some echoed ∧
      Agreement buffer commands run.value.1 echoed.value.1 ∧ run.records = echoed.records := by
  induction commands generalizing reading readers cursors with
  | nil => exact ⟨_, _, rfl, rfl, .nil, rfl⟩
  | cons command commands ih =>
    rw [ReaderCommand.addressed, Bool.and_eq_true, decide_eq_true_iff] at haddressed
    obtain ⟨hreads, hrest⟩ := haddressed
    cases htwin : command.twin? with
    | none =>
      obtain ⟨step, hstep, hreply, hrecords, hnext⟩ := h.exec?_own hreads htwin
      obtain ⟨run, echoed, hrun, hechoed, hagree, hsame⟩ := ih hnext hrest
      refine ⟨_, echoed, Logged.execAll?_cons hstep hrun, ?_, .buffer htwin hreply hagree, ?_⟩
      · rwa [List.filterMap_cons_none htwin]
      · simp [hrecords, hsame]
    | some twin =>
      obtain ⟨step, answer, hstep, hanswer, hechoes, hrecords, hnext⟩ := h.exec?_twin hreads htwin
      obtain ⟨run, echoed, hrun, hechoed, hagree, hsame⟩ := ih hnext hrest
      have htwins := Logged.execAll?_cons hanswer hechoed
      rw [← List.filterMap_cons_some htwin] at htwins
      refine ⟨_, _, Logged.execAll?_cons hstep hrun, htwins, .twin htwin hechoes hagree, ?_⟩
      simp [hrecords, hsame]

end Mirrors

end ReaderFamily

/-- Readers answer what cursors in their places answer, and record the same. Their buffer stays
the one of the source, whatever has been read of it. -/
theorem agreement_execAll?_start (source : String) (commands : List ReaderCommand)
    (h : ReaderCommand.addressed [true] commands = true) :
    let buffer := (tokenize source).value
    ∃ run echoed, (ReaderFamily.start source).value.execAll? commands = some run ∧
      (CursorFamily.start buffer).execAll? (commands.filterMap ReaderCommand.twin?) =
        some echoed ∧
      Agreement buffer commands run.value.1 echoed.value.1 ∧ (buffer == buffer) = true ∧
      (ReaderFamily.start source).records ++ run.records =
        (tokenize source).records ++ echoed.records := by
  intro buffer
  obtain ⟨run, echoed, hrun, hechoed, hagree, hrecords⟩ :=
    (ReaderFamily.mirrors_start source).execAll?_twin h
  have hstart : (ReaderFamily.start source).records = (tokenize source).records := by
    simp [ReaderFamily.start, TokenReader.ofSource]
  refine ⟨run, echoed, hrun, hechoed, hagree, (beq_tokenize_iff source source).2 rfl, ?_⟩
  rw [hstart, hrecords]

theorem agreement_execAll?_start_clone :
    let commands : List ReaderCommand :=
      [.next 0, .clone 0, .next 0, .buffer 0, .intoBuffer 0, .peek 1, .next 1, .position 1]
    let buffer := (tokenize "x @").value
    ReaderCommand.addressed [true] commands = true ∧
      ∃ run echoed, (ReaderFamily.start "x @").value.execAll? commands = some run ∧
        (CursorFamily.start buffer).execAll? [.ask 0 .next, .clone 0, .ask 0 .next, .ask 1 .peek,
          .ask 1 .next, .ask 1 .position] = some echoed ∧
        Agreement buffer commands run.value.1 echoed.value.1 := by
  intro commands buffer
  have h : ReaderCommand.addressed [true] commands = true := by decide
  obtain ⟨run, echoed, hrun, hechoed, hagree, -⟩ := agreement_execAll?_start "x @" commands h
  exact ⟨h, run, echoed, hrun, hechoed, hagree⟩

end ImagingLexer
