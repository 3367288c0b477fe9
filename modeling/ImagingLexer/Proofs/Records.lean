import ImagingLexer.Proofs.Cursor.Independence
import ImagingLexer.Proofs.Locations

/-! # The records of a session

What is recorded can be told from the tokens of the source and from the answers. A scan records
its broken tokens, each once, and a cursor records the diagnostics that it hands out, each as
often as it hands it out.
-/

namespace ImagingLexer

/-- What the scan records of a token, if the token is broken. -/
def Token.recording? (token : Token) : Option Record :=
  token.fault?.map fun fault => .faultRecorded token.span.start token.text fault

def Taken.diagnostics : Taken → List Diagnostic
  | .ok _ => []
  | .error diagnostic => [diagnostic]

def Reply.diagnostics : Reply → List Diagnostic
  | .taken found | .stepped (some found) => Taken.diagnostics found
  | .collected all => all.flatMap Taken.diagnostics
  | .stepped none | .kind _ | .flag _ | .number _ => []

def Command.inspects : Command → Bool
  | .ask _ .peekKind | .ask _ .isAtEnd | .ask _ .position | .fresh | .clone _ => true
  | .ask _ _ => false

/-- The record tells the fault of the diagnostic and where the token begins that has it. -/
def TokenBuffer.Surfaces (buffer : TokenBuffer) (diagnostic : Diagnostic) (record : Record) :
    Prop :=
  ∃ token ∈ buffer.tokens.toList, token.diagnostic? = some diagnostic ∧
    record = .faultSurfaced token.span.start diagnostic.fault

namespace Scan

variable {index : LineIndex} {scan : Scan}

def Recorded (scan : Scan) : Prop :=
  scan.records.toList = scan.tokens.toList.filterMap Token.recording?

theorem Recorded.accept (h : scan.Recorded) (lexeme : Lexeme) (rest : List Char) :
    (scan.accept index lexeme rest).Recorded := by
  unfold Recorded at h ⊢
  unfold Scan.accept
  dsimp only
  split
  next => exact h
  next kind value hmeaning =>
    have hsound := (Lexeme.token_of_meaning hmeaning).2.2.1
    have hrecording : (Token.cover index scan.offset lexeme.text kind value).recording? = none := by
      rw [Token.recording?, Option.map_eq_none_iff, Option.eq_none_iff_forall_ne_some]
      exact fun fault hfault => hsound fault (Token.fault?_eq_some_iff.1 hfault)
    rw [Array.toList_push, List.filterMap_append, List.filterMap_cons_none hrecording, h]
    simp
  next fault _ =>
    rw [Array.toList_push, Array.toList_push, List.filterMap_append, h]
    rfl

theorem Recorded.run (h : scan.Recorded) : (scan.run index).Recorded := by
  fun_induction Scan.run index scan with
  | case1 scan hrest => exact h
  | case2 scan hrest ih =>
    obtain ⟨c, rest, hcons⟩ := List.exists_cons_of_ne_nil hrest
    rw [step_of_rest_eq_cons index hcons] at ih ⊢
    exact ih (h.accept _ _)

end Scan

theorem records_tokenize (source : String) :
    (tokenize source).records =
      [.scanOpened (utf8 source).length, .scanEntered] ++
        (tokenize source).value.tokens.toList.filterMap Token.recording? ++
        [.scanFinished (tokenize source).value.size (tokenize source).value.errorCount,
          .scanExited] := by
  have hstart : (Scan.start source.toList).Recorded := rfl
  have hrun : ((Scan.start source.toList).run (.ofSource source)).Recorded := hstart.run
  unfold Scan.Recorded at hrun
  rw [length_utf8, tokenize, hrun]
  simp [Scan.finish, Token.recording?, Token.fault?, Token.cover]

section Reading

variable {buffer : TokenBuffer}

open List (Forall₂)

theorem Token.surfaces_surface {token : Token} (h : token ∈ buffer.tokens.toList) :
    Forall₂ buffer.Surfaces token.surface.value.diagnostics token.surface.records := by
  unfold surface
  split
  next => exact .nil
  next diagnostic hdiagnostic => exact .cons ⟨token, h, hdiagnostic, rfl⟩ .nil

namespace Cursor

theorem surfaces_peek (cursor : Cursor buffer) :
    Forall₂ buffer.Surfaces cursor.peek.value.diagnostics cursor.peek.records :=
  Token.surfaces_surface (Array.getElem_mem_toList cursor.index.isLt)

theorem surfaces_next (cursor : Cursor buffer) :
    Forall₂ buffer.Surfaces cursor.next.value.1.diagnostics cursor.next.records := by
  rw [next, Logged.records_bind_eq _ rfl]
  exact cursor.surfaces_peek

theorem surfaces_step (cursor : Cursor buffer) :
    Forall₂ buffer.Surfaces (Reply.stepped cursor.step.value.1).diagnostics
      cursor.step.records := by
  unfold step
  split
  next => exact .nil
  next =>
    rw [Logged.records_bind_eq _ rfl]
    exact surfaces_next { cursor with finished := cursor.isAtEnd }

theorem surfaces_collect (cursor : Cursor buffer) :
    Forall₂ buffer.Surfaces (Reply.collected cursor.collect.value.1).diagnostics
      cursor.collect.records := by
  fun_induction collect cursor with
  | case1 cursor moved records hstep =>
    have hsurfaces := cursor.surfaces_step
    rwa [hstep] at hsurfaces
  | case2 cursor taken moved records hstep hlt rest ih =>
    have hsurfaces := cursor.surfaces_step
    rw [hstep] at hsurfaces
    exact List.rel_append hsurfaces ih

theorem surfaces_perform (cursor : Cursor buffer) (request : Request) :
    Forall₂ buffer.Surfaces (cursor.perform request).value.1.diagnostics
      (cursor.perform request).records := by
  cases request with
  | peekKind | isAtEnd | position => exact .nil
  | next =>
    rw [perform, Logged.records_bind_eq _ rfl]
    exact cursor.surfaces_next
  | peek =>
    rw [perform, Logged.records_bind_eq _ rfl]
    exact cursor.surfaces_peek
  | step =>
    rw [perform, Logged.records_bind_eq _ rfl]
    exact cursor.surfaces_step
  | collect =>
    rw [perform, Logged.records_bind_eq _ rfl]
    exact cursor.surfaces_collect

end Cursor

namespace CursorFamily

variable {family : CursorFamily buffer} {commands : List Command} {command : Command}

theorem surfaces_exec? {step : Logged (Answer × CursorFamily buffer)}
    (h : family.exec? command = some step) :
    Forall₂ buffer.Surfaces step.value.1.reply.diagnostics step.records := by
  cases command with
  | ask n request =>
    obtain ⟨hn, hstep⟩ := Option.dite_none_right_eq_some.1 h
    cases hstep
    rw [Logged.records_bind_eq _ rfl]
    exact family[n].surfaces_perform request
  | fresh =>
    cases h
    exact .nil
  | clone n =>
    obtain ⟨cursor, -, rfl⟩ := Option.map_eq_some_iff.1 h
    exact .nil

theorem surfaces_execAll? {run : Logged (List Answer × CursorFamily buffer)}
    (h : family.execAll? commands = some run) :
    Forall₂ buffer.Surfaces (run.value.1.flatMap (·.reply.diagnostics)) run.records := by
  induction commands generalizing family run with
  | nil =>
    cases h
    exact .nil
  | cons command commands ih =>
    obtain ⟨step, others, hstep, hothers, rfl⟩ := Logged.exists_of_execAll?_cons h
    exact List.rel_append (surfaces_exec? hstep) (ih hothers)

theorem records_exec?_of_inspects {step : Logged (Answer × CursorFamily buffer)}
    (h : family.exec? command = some step) (hinspects : command.inspects = true) :
    step.records = [] := by
  have hsurfaces := surfaces_exec? h
  suffices hnone : step.value.1.reply.diagnostics = [] by
    rw [hnone] at hsurfaces
    exact List.forall₂_nil_left_iff.1 hsurfaces
  cases command with
  | ask n request =>
    obtain ⟨hn, hstep⟩ := Option.dite_none_right_eq_some.1 h
    cases hstep
    cases request with
    | peekKind | isAtEnd | position => rfl
    | next | peek | step | collect => cases hinspects
  | fresh =>
    cases h
    rfl
  | clone n =>
    obtain ⟨cursor, -, rfl⟩ := Option.map_eq_some_iff.1 h
    rfl

end CursorFamily

end Reading

section Source

variable {source : String} {token token' : Token}

theorem isSome_recording?_of_mem_tokenize (h : token ∈ (tokenize source).value.tokens.toList) :
    token.recording?.isSome = true ↔ token.kind = .error := by
  rw [Token.recording?, Option.isSome_map]
  exact isSome_fault?_of_mem_tokenize h

/-- No two tokens have the same diagnostic, since no two begin at the same place. -/
theorem eq_of_diagnostic?_eq {diagnostic : Diagnostic}
    (h : token ∈ (tokenize source).value.tokens.toList)
    (h' : token' ∈ (tokenize source).value.tokens.toList)
    (hdiagnostic : token.diagnostic? = some diagnostic)
    (hdiagnostic' : token'.diagnostic? = some diagnostic) : token = token' := by
  have hlocation := location_of_diagnostic? hdiagnostic
  rw [location_of_diagnostic? hdiagnostic', location_span_of_mem_tokenize h,
    location_span_of_mem_tokenize h'] at hlocation
  have hstart := LineIndex.location_ofText_injective source.toList hlocation
  have hstarts := List.pairwise_map.2 (pairwise_start_tokenize source)
  exact List.inj_on_of_nodup_map (hstarts.imp Nat.ne_of_lt) h h' hstart.symm

theorem length_recordings (source : String) :
    ((tokenize source).value.tokens.toList.filterMap Token.recording?).length =
      (tokenize source).value.errorCount := by
  rw [errorCount_eq_countP, List.length_filterMap_eq_countP]
  refine List.countP_congr fun token htoken => ?_
  rw [isSome_recording?_of_mem_tokenize htoken, decide_eq_true_iff]

theorem messages_tokenize (source : String) :
    (tokenize source).records.map Record.message? =
      [none, none] ++
        List.replicate (tokenize source).value.errorCount (some "recorded lexical error") ++
        [some "scanned source", none] := by
  have hrecordings :
      ((tokenize source).value.tokens.toList.filterMap Token.recording?).map Record.message? =
        List.replicate (tokenize source).value.errorCount (some "recorded lexical error") := by
    refine List.eq_replicate_iff.2 ⟨by rw [List.length_map, length_recordings], ?_⟩
    intro message hmessage
    obtain ⟨record, hrecord, rfl⟩ := List.mem_map.1 hmessage
    obtain ⟨token, -, hrecording⟩ := List.mem_filterMap.1 hrecord
    obtain ⟨fault, -, rfl⟩ := Option.map_eq_some_iff.1 hrecording
    rfl
  rw [records_tokenize, List.map_append, List.map_append, hrecordings]
  rfl

end Source

theorem messages_of_surfaces {buffer : TokenBuffer} {diagnostics : List Diagnostic}
    {records : List Record} (h : List.Forall₂ buffer.Surfaces diagnostics records) :
    records.map Record.message? =
      List.replicate diagnostics.length (some "surfacing lexical error") := by
  induction h with
  | nil => rfl
  | cons hrecord _ ih =>
    obtain ⟨token, -, -, rfl⟩ := hrecord
    exact congrArg _ ih

/-- A session records the scan, each broken token as it was found, and then each diagnostic that
an answer hands out, with the token that it comes from. There is one such token only. -/
theorem records_execAll?_start (source : String) (commands : List Command)
    (h : Command.addressed 1 commands = true) :
    let buffer := (tokenize source).value
    ∃ run surfaced, (CursorFamily.start buffer).execAll? commands = some run ∧
      (tokenize source).records ++ run.records =
        [.scanOpened (utf8 source).length, .scanEntered] ++
          buffer.tokens.toList.filterMap Token.recording? ++
          [.scanFinished buffer.size buffer.errorCount, .scanExited] ++ surfaced ∧
      List.Forall₂ buffer.Surfaces (run.value.1.flatMap (·.reply.diagnostics)) surfaced ∧
      ((tokenize source).records ++ run.records).map Record.message? =
        [none, none] ++ List.replicate buffer.errorCount (some "recorded lexical error") ++
          [some "scanned source", none] ++
          List.replicate (run.value.1.flatMap (·.reply.diagnostics)).length
            (some "surfacing lexical error") ∧
      (∀ token ∈ buffer.tokens.toList,
        (token.recording?.isSome = true ↔ token.kind = .error) ∧
          ∀ other ∈ buffer.tokens.toList, ∀ diagnostic, token.diagnostic? = some diagnostic →
            other.diagnostic? = some diagnostic → token = other) ∧
      ∀ command step, run.value.2.exec? command = some step →
        List.Forall₂ buffer.Surfaces step.value.1.reply.diagnostics step.records ∧
          (command.inspects = true → step.records = []) := by
  intro buffer
  obtain ⟨run, hrun, -⟩ := CursorFamily.follows_execAll?_start buffer h
  have hsurfaces := CursorFamily.surfaces_execAll? hrun
  refine ⟨run, run.records, hrun, by rw [records_tokenize], hsurfaces, ?_, ?_, ?_⟩
  · rw [List.map_append, messages_tokenize, messages_of_surfaces hsurfaces]
  · intro token htoken
    exact ⟨isSome_recording?_of_mem_tokenize htoken,
      fun other hother diagnostic => eq_of_diagnostic?_eq htoken hother⟩
  · intro command step hstep
    exact ⟨CursorFamily.surfaces_exec? hstep, CursorFamily.records_exec?_of_inspects hstep⟩

theorem records_execAll?_start_again :
    let commands : List Command := [.ask 0 .peek, .ask 0 .peekKind, .clone 0, .ask 0 .next,
      .ask 0 .collect, .ask 1 .collect]
    let buffer := (tokenize "@ x").value
    let token : Token := ⟨.error, "@", ⟨0, 1, 0, 0⟩, .error .illegalCharacter⟩
    let diagnostic : Diagnostic := ⟨.illegalCharacter, "@", ⟨0, 0⟩⟩
    Command.addressed 1 commands = true ∧ Command.fresh.inspects = true ∧
      token ∈ buffer.tokens.toList ∧ token.diagnostic? = some diagnostic ∧
      (∀ other ∈ buffer.tokens.toList, other.diagnostic? = some diagnostic → token = other) ∧
      ∃ run surfaced step, (CursorFamily.start buffer).execAll? commands = some run ∧
        (tokenize "@ x").records ++ run.records =
          [.scanOpened (utf8 "@ x").length, .scanEntered] ++
            buffer.tokens.toList.filterMap Token.recording? ++
            [.scanFinished buffer.size buffer.errorCount, .scanExited] ++ surfaced ∧
        List.Forall₂ buffer.Surfaces [diagnostic, diagnostic, diagnostic] surfaced ∧
        run.value.2.exec? .fresh = some step ∧ step.records = [] := by
  intro commands buffer token diagnostic
  have h : Command.addressed 1 commands = true := by decide
  obtain ⟨run, surfaced, hrun, hlog, hsurfaces, -, htokens, hcommands⟩ :=
    records_execAll?_start "@ x" commands h
  have hhanded : ((CursorFamily.start buffer).execAll? commands).map
      (·.value.1.flatMap (·.reply.diagnostics)) = some [diagnostic, diagnostic, diagnostic] := by
    decide +kernel
  rw [hrun, Option.map_some, Option.some.injEq] at hhanded
  rw [hhanded] at hsurfaces
  have htoken : buffer.tokens.toList[0]? = some token := by decide +kernel
  have hmem := List.mem_of_getElem? htoken
  exact ⟨h, rfl, hmem, rfl, fun other hother => (htokens token hmem).2 other hother diagnostic rfl,
    run, surfaced, _, hrun, hlog, hsurfaces, rfl, (hcommands .fresh _ rfl).2 rfl⟩

end ImagingLexer
