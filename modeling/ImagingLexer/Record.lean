import ImagingLexer.Fault

/-! # Log records

Scanning and reading report what they do. A logged result carries its records in the
order in which they were made, and sequencing two steps appends their records.
-/

namespace ImagingLexer

inductive Level
  | debug
  | trace
  deriving DecidableEq, Repr

inductive Record
  /-- A scan of so many bytes was set up. -/
  | scanOpened (length : Nat)
  | scanEntered
  | faultRecorded (offset : Nat) (text : String) (fault : Fault)
  | scanFinished (tokens errors : Nat)
  | scanExited
  /-- A broken lexeme was handed to a reader. -/
  | faultSurfaced (offset : Nat) (fault : Fault)
  deriving DecidableEq, Repr

namespace Record

def level? : Record → Option Level
  | scanOpened _ | scanFinished .. => some .debug
  | faultRecorded .. | faultSurfaced .. => some .trace
  | scanEntered | scanExited => none

def message? : Record → Option String
  | faultRecorded .. => some "recorded lexical error"
  | scanFinished .. => some "scanned source"
  | faultSurfaced .. => some "surfacing lexical error"
  | scanOpened _ | scanEntered | scanExited => none

end Record

structure Logged (α : Type) where
  value : α
  records : List Record
  deriving DecidableEq, Repr

namespace Logged

variable {α β : Type}

def record (entry : Record) : Logged Unit := ⟨(), [entry]⟩

instance : Monad Logged where
  pure value := ⟨value, []⟩
  bind logged next :=
    let result := next logged.value
    ⟨result.value, logged.records ++ result.records⟩

@[simp] theorem value_pure (value : α) : (pure value : Logged α).value = value := rfl

@[simp] theorem records_pure (value : α) : (pure value : Logged α).records = [] := rfl

@[simp] theorem value_bind (logged : Logged α) (next : α → Logged β) :
    (logged >>= next).value = (next logged.value).value := rfl

@[simp] theorem records_bind (logged : Logged α) (next : α → Logged β) :
    (logged >>= next).records = logged.records ++ (next logged.value).records := rfl

theorem records_bind_eq (logged : Logged α) {next : α → Logged β}
    (h : (next logged.value).records = []) : (logged >>= next).records = logged.records := by
  rw [records_bind, h, List.append_nil]

@[simp] theorem records_record (entry : Record) : (record entry).records = [entry] := rfl

/-- Carry out commands one after the other, if each of them has a result. -/
def execAll? {σ κ ρ : Type} (exec? : σ → κ → Option (Logged (ρ × σ))) (state : σ) :
    List κ → Option (Logged (List ρ × σ))
  | [] => some (pure ([], state))
  | command :: commands => do
    let first ← exec? state command
    let others ← execAll? exec? first.value.2 commands
    some do
      let (answer, _) ← first
      let (answers, last) ← others
      pure (answer :: answers, last)

section ExecAll

variable {σ κ ρ : Type} {exec? : σ → κ → Option (Logged (ρ × σ))} {state : σ}
  {commands : List κ} {command : κ}

theorem execAll?_cons {first : Logged (ρ × σ)} {others : Logged (List ρ × σ)}
    (hfirst : exec? state command = some first)
    (hothers : execAll? exec? first.value.2 commands = some others) :
    execAll? exec? state (command :: commands) =
      some ⟨(first.value.1 :: others.value.1, others.value.2),
        first.records ++ others.records⟩ := by
  simp only [execAll?, hfirst, Option.bind_eq_bind, Option.bind_some, hothers]
  show some (⟨_, first.records ++ (others.records ++ [])⟩ : Logged (List ρ × σ)) = _
  rw [List.append_nil]
  rfl

theorem exists_of_execAll?_cons {run : Logged (List ρ × σ)}
    (h : execAll? exec? state (command :: commands) = some run) :
    ∃ first others, exec? state command = some first ∧
      execAll? exec? first.value.2 commands = some others ∧
      run = ⟨(first.value.1 :: others.value.1, others.value.2),
        first.records ++ others.records⟩ := by
  have hrun := h
  simp only [execAll?, Option.bind_eq_bind, Option.bind_eq_some_iff] at h
  obtain ⟨first, hfirst, others, hothers, -⟩ := h
  rw [execAll?_cons hfirst hothers] at hrun
  exact ⟨first, others, hfirst, hothers, (Option.some.inj hrun).symm⟩

theorem execAll?_concat {run : Logged (List ρ × σ)} {last : Logged (ρ × σ)}
    (h : execAll? exec? state commands = some run)
    (hlast : exec? run.value.2 command = some last) :
    execAll? exec? state (commands ++ [command]) =
      some ⟨(run.value.1 ++ [last.value.1], last.value.2), run.records ++ last.records⟩ := by
  induction commands generalizing state run with
  | nil =>
    cases h
    refine (execAll?_cons hlast rfl).trans ?_
    simp
  | cons first commands ih =>
    obtain ⟨step, others, hstep, hothers, rfl⟩ := exists_of_execAll?_cons h
    refine (execAll?_cons hstep (ih hothers hlast)).trans ?_
    simp

end ExecAll

end Logged

end ImagingLexer
