import ImagingLexer.Proofs.Cursor.Run

/-! # Independence of cursors

What a cursor of a family answers depends on what it has been asked and on what the cursors it
descends from had been asked when they were cloned. Requests to other cursors make no
difference, and neither does the order in which requests to different cursors come.
-/

namespace ImagingLexer

inductive Origin
  | fresh
  /-- A copy of a cursor that had been asked so much by then. -/
  | clone (parent : Nat) (asked : List Request)
  deriving DecidableEq, Repr

namespace Origin

def rename (σ : Nat → Nat) : Origin → Origin
  | fresh => fresh
  | clone parent asked => clone (σ parent) asked

@[simp] theorem rename_id (origin : Origin) : origin.rename id = origin := by
  cases origin <;> rfl

/-- What the ancestors of a cursor had been asked, each up to the clone that leads to it. -/
def inherited (origins : List Origin) (n : Nat) : List Request :=
  match origins[n]? with
  | some (clone parent asked) => if parent < n then inherited origins parent ++ asked else []
  | _ => []
termination_by n

def Rooted (origins : List Origin) : Prop :=
  ∀ n parent asked, origins[n]? = some (clone parent asked) → parent < n

section Inherited

variable {origins origins' : List Origin} {n parent : Nat} {asked : List Request}

theorem inherited_of_fresh (h : origins[n]? = some fresh) : inherited origins n = [] := by
  rw [inherited, h]

theorem inherited_of_clone (hrooted : Rooted origins)
    (h : origins[n]? = some (clone parent asked)) :
    inherited origins n = inherited origins parent ++ asked := by
  rw [inherited, h]
  exact if_pos (hrooted n parent asked h)

theorem inherited_rename (hrooted : Rooted origins) (hrooted' : Rooted origins') {σ : Nat → Nat}
    (h : ∀ n origin, origins[n]? = some origin → origins'[σ n]? = some (origin.rename σ))
    (hn : n < origins.length) : inherited origins' (σ n) = inherited origins n := by
  induction n using Nat.strongRecOn with
  | ind n ih =>
    have horigin := List.getElem?_eq_getElem hn
    have horigin' := h n _ horigin
    cases hget : origins[n] with
    | fresh =>
      rw [hget] at horigin horigin'
      rw [inherited_of_fresh horigin, inherited_of_fresh horigin']
    | clone parent asked =>
      rw [hget] at horigin horigin'
      have hlt := hrooted n parent asked horigin
      rw [inherited_of_clone hrooted horigin, inherited_of_clone hrooted' horigin',
        ih parent hlt (hlt.trans hn)]

end Inherited

end Origin

open Origin (inherited inherited_of_fresh inherited_of_clone inherited_rename Rooted)

namespace Command

def requestTo? (n : Nat) : Command → Option Request
  | .ask m request => if m = n then some request else none
  | .fresh | .clone _ => none

def makes : Command → Bool
  | .ask _ _ => false
  | .fresh | .clone _ => true

def finds (size : Nat) : Command → Bool
  | .ask n _ | .clone n => n < size
  | .fresh => true

/-- Every command finds its cursor, if there are so many cursors at first. -/
def addressed (size : Nat) : List Command → Bool
  | [] => true
  | command :: commands =>
    command.finds size && addressed (if command.makes then size + 1 else size) commands

def asked (n : Nat) (commands : List Command) : List Request :=
  commands.filterMap (requestTo? n)

def origin? (earlier : List Command) : Command → Option Origin
  | .ask _ _ => none
  | .fresh => some .fresh
  | .clone parent => some (.clone parent (asked parent earlier))

def originsAfter (earlier : List Command) : List Command → List Origin
  | [] => []
  | command :: commands =>
    (command.origin? earlier).toList ++ originsAfter (earlier ++ [command]) commands

def origins (commands : List Command) : List Origin := .fresh :: originsAfter [] commands

def answersWhere (p : Command → Bool) (commands : List Command) (answers : List Answer) :
    List Answer :=
  ((commands.zip answers).filter fun entry => p entry.1).map Prod.snd

def answersTo (n : Nat) : List Command → List Answer → List Answer :=
  answersWhere fun command => (command.requestTo? n).isSome

def announcements : List Command → List Answer → List Answer := answersWhere makes

section Concat

variable {commands : List Command} {command : Command}

@[simp] theorem asked_concat (n : Nat) (commands : List Command) (command : Command) :
    asked n (commands ++ [command]) = asked n commands ++ (command.requestTo? n).toList := by
  cases h : command.requestTo? n <;> simp [asked, h]

theorem originsAfter_concat (earlier commands : List Command) (command : Command) :
    originsAfter earlier (commands ++ [command]) =
      originsAfter earlier commands ++ (command.origin? (earlier ++ commands)).toList := by
  induction commands generalizing earlier with
  | nil => simp [originsAfter]
  | cons first commands ih => simp [originsAfter, ih]

@[simp] theorem origins_concat (commands : List Command) (command : Command) :
    origins (commands ++ [command]) = origins commands ++ (command.origin? commands).toList := by
  simp [origins, originsAfter_concat]

theorem answersWhere_concat (p : Command → Bool) {answers : List Answer}
    (h : answers.length = commands.length) (answer : Answer) :
    answersWhere p (commands ++ [command]) (answers ++ [answer]) =
      answersWhere p commands answers ++ if p command then [answer] else [] := by
  rw [answersWhere, List.zip_append h.symm, List.filter_append, List.map_append]
  cases hp : p command <;> simp [answersWhere, hp]

theorem answersTo_concat (n : Nat) {answers : List Answer}
    (h : answers.length = commands.length) (answer : Answer) :
    answersTo n (commands ++ [command]) (answers ++ [answer]) =
      answersTo n commands answers ++ if (command.requestTo? n).isSome then [answer] else [] :=
  answersWhere_concat _ h answer

theorem announcements_concat {answers : List Answer} (h : answers.length = commands.length)
    (answer : Answer) :
    announcements (commands ++ [command]) (answers ++ [answer]) =
      announcements commands answers ++ if command.makes then [answer] else [] :=
  answersWhere_concat _ h answer

theorem getElem?_origins_concat {n : Nat} {origin : Origin}
    (h : (origins (commands ++ [command]))[n]? = some origin) :
    (origins commands)[n]? = some origin ∨
      n = (origins commands).length ∧ command.origin? commands = some origin := by
  rw [origins_concat] at h
  rcases Nat.lt_or_ge n (origins commands).length with hlt | hge
  · rw [List.getElem?_append_left hlt] at h
    exact .inl h
  · rw [List.getElem?_append_right hge] at h
    cases hmade : command.origin? commands with
    | none => simp [hmade] at h
    | some made =>
      simp only [hmade, Option.toList_some, List.getElem?_singleton, Option.ite_none_right_eq_some]
        at h
      exact .inr ⟨by omega, h.2⟩

theorem length_toList_origin? (command : Command) (earlier : List Command) :
    (command.origin? earlier).toList.length = if command.makes then 1 else 0 := by
  cases command <;> rfl

theorem addressed_concat_of_length (size : Nat) (earlier : List Command) :
    addressed size (commands ++ [command]) =
      (addressed size commands &&
        command.finds (size + (originsAfter earlier commands).length)) := by
  induction commands generalizing size earlier with
  | nil => simp [addressed, originsAfter]
  | cons first commands ih =>
    have hsize : (if first.makes then size + 1 else size) =
        size + (first.origin? earlier).toList.length := by
      rw [length_toList_origin?]
      split <;> rfl
    simp [addressed, originsAfter, ih _ (earlier ++ [first]), hsize, Bool.and_assoc,
      Nat.add_assoc]

theorem addressed_concat :
    addressed 1 (commands ++ [command]) = true ↔
      addressed 1 commands = true ∧ command.finds (origins commands).length = true := by
  rw [addressed_concat_of_length 1 [], Bool.and_eq_true, origins, List.length_cons, Nat.add_comm]

end Concat

section Addressed

variable {commands : List Command} {command : Command} {n : Nat}

theorem rooted_origins (h : addressed 1 commands = true) : Rooted (origins commands) := by
  induction commands using List.reverseRecOn with
  | nil =>
    intro n parent asked horigin
    cases n <;> simp [origins, originsAfter] at horigin
  | append_singleton commands command ih =>
    obtain ⟨hearlier, hfinds⟩ := addressed_concat.1 h
    intro n parent asked horigin
    rcases getElem?_origins_concat horigin with hold | ⟨rfl, hmade⟩
    · exact ih hearlier n parent asked hold
    · cases command with
      | ask _ _ | fresh => cases hmade
      | clone m =>
        cases hmade
        exact of_decide_eq_true hfinds

/-- A command changes nothing in what the cursors before it inherit. -/
theorem inherited_origins_concat (h : addressed 1 (commands ++ [command]) = true)
    (hn : n < (origins commands).length) :
    inherited (origins (commands ++ [command])) n = inherited (origins commands) n := by
  have hrooted := rooted_origins (addressed_concat.1 h).1
  refine @inherited_rename _ _ n hrooted (rooted_origins h) id ?_ hn
  intro m origin horigin
  rw [Origin.rename_id, origins_concat, List.getElem?_append_left]
  · exact horigin
  · exact (List.getElem?_eq_some_iff.1 horigin).1

theorem asked_eq_nil (h : addressed 1 commands = true) (hn : (origins commands).length ≤ n) :
    asked n commands = [] := by
  induction commands using List.reverseRecOn with
  | nil => rfl
  | append_singleton commands command ih =>
    obtain ⟨hearlier, hfinds⟩ := addressed_concat.1 h
    rw [origins_concat, List.length_append] at hn
    rw [asked_concat, ih hearlier (Nat.le_of_add_right_le hn), List.nil_append]
    cases command with
    | fresh | clone _ => rfl
    | ask m request =>
      have hm : m < (origins commands).length := of_decide_eq_true hfinds
      have hne : ¬ m = n := by omega
      simp [requestTo?, hne]

end Addressed

end Command

open Command

namespace Cursor

variable {buffer : TokenBuffer}

def answers (cursor : Cursor buffer) : List Request → List Answer
  | [] => []
  | request :: requests =>
    let (reply, moved) := (cursor.perform request).value
    ⟨reply, moved.position⟩ :: moved.answers requests

theorem after_append (cursor : Cursor buffer) (a b : List Request) :
    cursor.after (a ++ b) = (cursor.after a).after b := by
  simp only [after, performAll_append]

theorem answers_concat (cursor : Cursor buffer) (requests : List Request) (request : Request) :
    cursor.answers (requests ++ [request]) =
      cursor.answers requests ++
        [⟨((cursor.after requests).perform request).value.1,
          ((cursor.after requests).perform request).value.2.position⟩] := by
  induction requests generalizing cursor with
  | nil => rfl
  | cons first requests ih => exact congrArg _ (ih (cursor.perform first).value.2)

/-- A cursor that has been asked what another one inherits. -/
def heir (buffer : TokenBuffer) (commands : List Command) (n : Nat) : Cursor buffer :=
  (start buffer).after (inherited (origins commands) n)

end Cursor

namespace CursorFamily

variable {buffer : TokenBuffer} {commands : List Command} {answers : List Answer}
  {family : CursorFamily buffer}

section Results

theorem exec?_ask {n : Nat} {cursor : Cursor buffer} (h : family[n]? = some cursor)
    (request : Request) :
    ∃ step, family.exec? (.ask n request) = some step ∧
      step.value.1 =
        ⟨(cursor.perform request).value.1, (cursor.perform request).value.2.position⟩ ∧
      step.records = (cursor.perform request).records ∧
      step.value.2.size = family.size ∧
      ∀ m, step.value.2[m]? =
        if n = m then some (cursor.perform request).value.2 else family[m]? := by
  obtain ⟨hn, rfl⟩ := Array.getElem?_eq_some_iff.1 h
  exact ⟨_, dif_pos hn, rfl, List.append_nil _, Array.size_set hn, fun m => Array.getElem?_set hn⟩

theorem finds_of_exec? {command : Command} {step : Logged (Answer × CursorFamily buffer)}
    (h : family.exec? command = some step) :
    command.finds family.size = true ∧
      step.value.2.size = if command.makes then family.size + 1 else family.size := by
  cases command with
  | ask n request =>
    simp only [exec?, Option.dite_none_right_eq_some] at h
    obtain ⟨hn, hstep⟩ := h
    cases hstep
    exact ⟨decide_eq_true hn, Array.size_set hn⟩
  | fresh =>
    cases h
    exact ⟨rfl, Array.size_push ..⟩
  | clone n =>
    obtain ⟨cursor, hcursor, rfl⟩ := Option.map_eq_some_iff.1 h
    exact ⟨decide_eq_true (Array.getElem?_eq_some_iff.1 hcursor).1, Array.size_push ..⟩

theorem addressed_of_execAll? {run : Logged (List Answer × CursorFamily buffer)}
    (h : family.execAll? commands = some run) : addressed family.size commands = true := by
  induction commands generalizing family run with
  | nil => rfl
  | cons command commands ih =>
    obtain ⟨step, others, hstep, hothers, -⟩ := Logged.exists_of_execAll?_cons h
    obtain ⟨hfinds, hsize⟩ := finds_of_exec? hstep
    rw [addressed, hfinds, ← hsize]
    exact ih hothers

end Results

section Follows

/-- The commands have been answered, and every cursor stands where it would stand alone. -/
structure Follows (commands : List Command) (answers : List Answer)
    (family : CursorFamily buffer) : Prop where
  length_eq : answers.length = commands.length
  size_eq : family.size = (origins commands).length
  getElem?_eq : ∀ n < (origins commands).length,
    family[n]? = some ((Cursor.heir buffer commands n).after (asked n commands))
  answersTo_eq : ∀ n, answersTo n commands answers =
    (Cursor.heir buffer commands n).answers (asked n commands)
  announcements_eq : announcements commands answers =
    (List.range (origins commands).length).tail.map fun n =>
      ⟨.number n, (Cursor.heir buffer commands n).position⟩

theorem follows_start (buffer : TokenBuffer) : Follows [] [] (start buffer) where
  length_eq := rfl
  size_eq := rfl
  getElem?_eq n hn := by
    obtain rfl : n = 0 := Nat.lt_one_iff.1 hn
    rw [Cursor.heir, @inherited_of_fresh (origins []) 0 rfl]
    rfl
  answersTo_eq _ := rfl
  announcements_eq := rfl

theorem heir_concat {command : Command} (h : addressed 1 (commands ++ [command]) = true) {n : Nat}
    (hn : n < (origins commands).length) :
    Cursor.heir buffer (commands ++ [command]) n = Cursor.heir buffer commands n := by
  rw [Cursor.heir, inherited_origins_concat h hn, Cursor.heir]

namespace Follows

theorem ask (h : Follows commands answers family) {n : Nat}
    (hn : n < (origins commands).length) (request : Request) :
    ∃ step, family.exec? (.ask n request) = some step ∧
      Follows (commands ++ [.ask n request]) (answers ++ [step.value.1]) step.value.2 := by
  obtain ⟨step, hstep, hanswer, -, hsize, hget⟩ := exec?_ask (h.getElem?_eq n hn) request
  have horigins : origins (commands ++ [.ask n request]) = origins commands := by
    simp [origin?]
  have hheir (m : Nat) : Cursor.heir buffer (commands ++ [.ask n request]) m =
      Cursor.heir buffer commands m := by
    rw [Cursor.heir, horigins, Cursor.heir]
  -- Only the cursor `n` has moved, and only its list of answers has grown.
  refine ⟨step, hstep, ?_, ?_, fun m hm => ?_, fun m => ?_, ?_⟩
  · simp [h.length_eq]
  · rw [hsize, h.size_eq, horigins]
  · rw [horigins] at hm
    rw [hget, hheir, asked_concat]
    by_cases hnm : n = m
    · subst hnm
      simp [requestTo?, Cursor.after_concat]
    · simp [requestTo?, hnm, h.getElem?_eq m hm]
  · rw [hheir, asked_concat, answersTo_concat m h.length_eq, h.answersTo_eq m]
    by_cases hnm : n = m
    · subst hnm
      simp [requestTo?, Cursor.answers_concat, hanswer]
    · simp [requestTo?, hnm]
  · rw [announcements_concat h.length_eq, h.announcements_eq, horigins]
    simp [makes, hheir]

theorem add (h : Follows commands answers family) {command : Command}
    (haddressed : addressed 1 (commands ++ [command]) = true) (hmakes : command.makes = true)
    {cursor : Cursor buffer}
    (hcursor : cursor = Cursor.heir buffer (commands ++ [command]) (origins commands).length) :
    Follows (commands ++ [command]) (answers ++ [(family.add cursor).1])
      (family.add cursor).2 := by
  have hrequest (m : Nat) : command.requestTo? m = none := by
    cases command with
    | ask _ _ => cases hmakes
    | fresh | clone _ => rfl
  have hlength : (origins (commands ++ [command])).length = (origins commands).length + 1 := by
    rw [origins_concat, List.length_append, length_toList_origin?, if_pos hmakes]
  have hasked {m : Nat} (hm : (origins commands).length ≤ m) : asked m commands = [] := by
    exact asked_eq_nil (addressed_concat.1 haddressed).1 hm
  have hget (m : Nat) : (family.add cursor).2[m]? =
      if m = (origins commands).length then some cursor else family[m]? := by
    rw [← h.size_eq]
    exact Array.getElem?_push
  refine ⟨?_, ?_, fun m hm => ?_, fun m => ?_, ?_⟩
  · simp [h.length_eq]
  · rw [hlength, ← h.size_eq]
    exact Array.size_push ..
  · rw [hlength] at hm
    rw [hget, asked_concat, hrequest, Option.toList_none, List.append_nil]
    rcases Nat.lt_succ_iff_lt_or_eq.1 hm with hlt | rfl
    · rw [if_neg hlt.ne, heir_concat haddressed hlt, h.getElem?_eq m hlt]
    · rw [if_pos rfl, hasked le_rfl, hcursor, Cursor.after_nil]
  · rw [asked_concat, answersTo_concat m h.length_eq, h.answersTo_eq m, hrequest,
      Option.toList_none, List.append_nil]
    rcases Nat.lt_or_ge m (origins commands).length with hlt | hge
    · simp [heir_concat haddressed hlt]
    · simp [hasked hge, Cursor.answers]
  · have hpos : List.range (origins commands).length ≠ [] := by simp [origins]
    rw [announcements_concat h.length_eq, h.announcements_eq, hlength, if_pos hmakes,
      List.range_succ, List.tail_append_of_ne_nil hpos, List.map_append]
    congr 1
    · refine List.map_congr_left fun m hm => ?_
      rw [heir_concat haddressed (List.mem_range.1 (List.mem_of_mem_tail hm))]
    · simp [CursorFamily.add, h.size_eq, hcursor]

theorem concat (h : Follows commands answers family) {command : Command}
    (haddressed : addressed 1 (commands ++ [command]) = true) :
    ∃ step, family.exec? command = some step ∧
      Follows (commands ++ [command]) (answers ++ [step.value.1]) step.value.2 := by
  have hfinds := (addressed_concat.1 haddressed).2
  have hlast : (origins (commands ++ [command]))[(origins commands).length]? =
      command.origin? commands := by
    rw [origins_concat, List.getElem?_append_right le_rfl, Nat.sub_self]
    cases command <;> rfl
  cases command with
  | ask n request =>
    have hn : n < (origins commands).length := of_decide_eq_true hfinds
    exact h.ask hn request
  | fresh =>
    refine ⟨_, rfl, h.add haddressed rfl ?_⟩
    rw [Cursor.heir, inherited_of_fresh hlast, Cursor.after_nil]
  | clone n =>
    have hn : n < (origins commands).length := of_decide_eq_true hfinds
    have hcursor := h.getElem?_eq n hn
    refine ⟨_, congrArg (Option.map _) hcursor, h.add haddressed rfl ?_⟩
    have hinherited := inherited_of_clone (rooted_origins haddressed) hlast
    rw [inherited_origins_concat haddressed hn] at hinherited
    rw [Cursor.heir, Cursor.heir, hinherited, Cursor.after_append]

end Follows

theorem follows_execAll?_start (buffer : TokenBuffer) (h : addressed 1 commands = true) :
    ∃ run, (start buffer).execAll? commands = some run ∧
      Follows commands run.value.1 run.value.2 := by
  -- From the right, as what a clone inherits is in the commands before it.
  induction commands using List.reverseRecOn with
  | nil => exact ⟨_, rfl, follows_start buffer⟩
  | append_singleton commands command ih =>
    obtain ⟨run, hrun, hfollows⟩ := ih (addressed_concat.1 h).1
    obtain ⟨step, hstep, hnext⟩ := hfollows.concat h
    exact ⟨_, Logged.execAll?_concat hrun hstep, hnext⟩

/-- There is a result just if every command finds its cursor. -/
theorem isSome_execAll?_start (buffer : TokenBuffer) (commands : List Command) :
    ((start buffer).execAll? commands).isSome = addressed 1 commands := by
  rw [Bool.eq_iff_iff, Option.isSome_iff_exists]
  constructor
  · rintro ⟨run, hrun⟩
    exact addressed_of_execAll? hrun
  · intro h
    obtain ⟨run, hrun, -⟩ := follows_execAll?_start buffer h
    exact ⟨run, hrun⟩

end Follows

end CursorFamily

section Reorders

/-- The same requests in another order, in which the cursors are renumbered by `σ`: each cursor
is asked the same and each clone is made when its parent has been asked the same. -/
def Reorders (σ : Nat → Nat) (commands commands' : List Command) : Prop :=
  ∀ n : Fin (origins commands).length,
    (origins commands')[σ n]? = some ((origins commands)[n].rename σ) ∧
      asked (σ n) commands' = asked n commands
  deriving Decidable

theorem Reorders.heir_eq {σ : Nat → Nat} {commands commands' : List Command}
    (hreorders : Reorders σ commands commands') (h : addressed 1 commands = true)
    (h' : addressed 1 commands' = true) (buffer : TokenBuffer) {n : Nat}
    (hn : n < (origins commands).length) :
    Cursor.heir buffer commands' (σ n) = Cursor.heir buffer commands n := by
  have hinherited : inherited (origins commands') (σ n) = inherited (origins commands) n := by
    refine inherited_rename (rooted_origins h) (rooted_origins h') ?_ hn
    intro m origin horigin
    obtain ⟨hm, rfl⟩ := List.getElem?_eq_some_iff.1 horigin
    exact (hreorders ⟨m, hm⟩).1
  rw [Cursor.heir, hinherited, Cursor.heir]

end Reorders

/-- Every cursor of a family answers as one that is alone and that has first been asked what its
ancestors had been asked up to each clone. So a reordering makes no difference to a cursor. The
buffer belongs to the type of the family: no command changes it. -/
theorem answersTo_execAll?_start (source : String) (commands : List Command)
    (h : addressed 1 commands = true) :
    let buffer := (tokenize source).value
    ∃ run, (CursorFamily.start buffer).execAll? commands = some run ∧
      run.value.1.length = commands.length ∧
      (∀ n, answersTo n commands run.value.1 =
        (Cursor.heir buffer commands n).answers (asked n commands)) ∧
      announcements commands run.value.1 =
        ((List.range (origins commands).length).tail.map fun n =>
          ⟨.number n, (Cursor.heir buffer commands n).position⟩) ∧
      (∀ n < (origins commands).length,
        run.value.2[n]? = some ((Cursor.heir buffer commands n).after (asked n commands))) ∧
      ∀ (σ : Nat → Nat) (commands' : List Command), addressed 1 commands' = true →
        Reorders σ commands commands' →
        ∃ run', (CursorFamily.start buffer).execAll? commands' = some run' ∧
          ∀ n < (origins commands).length,
            Cursor.heir buffer commands' (σ n) = Cursor.heir buffer commands n ∧
              answersTo (σ n) commands' run'.value.1 = answersTo n commands run.value.1 ∧
              run'.value.2[σ n]? = run.value.2[n]? := by
  intro buffer
  obtain ⟨run, hrun, hfollows⟩ := CursorFamily.follows_execAll?_start buffer h
  refine ⟨run, hrun, hfollows.length_eq, hfollows.answersTo_eq, hfollows.announcements_eq,
    hfollows.getElem?_eq, fun σ commands' h' hreorders => ?_⟩
  obtain ⟨run', hrun', hfollows'⟩ := CursorFamily.follows_execAll?_start buffer h'
  refine ⟨run', hrun', fun n hn => ?_⟩
  obtain ⟨horigin, hasked⟩ := hreorders ⟨n, hn⟩
  have hheir := hreorders.heir_eq h h' buffer hn
  have hσ := (List.getElem?_eq_some_iff.1 horigin).1
  refine ⟨hheir, ?_, ?_⟩
  · rw [hfollows'.answersTo_eq, hfollows.answersTo_eq, hheir, hasked]
  · rw [hfollows'.getElem?_eq _ hσ, hfollows.getElem?_eq n hn, hheir, hasked]

/-- The clone of a cursor that stands before a broken lexeme, whenever its parent collects. -/
theorem answersTo_execAll?_start_clone :
    let commands : List Command :=
      [.ask 0 .next, .clone 0, .ask 0 .collect, .ask 1 .next, .fresh, .ask 2 .step]
    let commands' : List Command :=
      [.fresh, .ask 1 .step, .ask 0 .next, .clone 0, .ask 2 .next, .ask 0 .collect]
    let buffer := (tokenize "x @ 1").value
    addressed 1 commands = true ∧ addressed 1 commands' = true ∧
      Reorders (fun n => if n = 0 then 0 else 3 - n) commands commands' ∧
      ∃ run run', (CursorFamily.start buffer).execAll? commands = some run ∧
        (CursorFamily.start buffer).execAll? commands' = some run' ∧
        answersTo 2 commands' run'.value.1 = answersTo 1 commands run.value.1 ∧
        run'.value.2[2]? = run.value.2[1]? := by
  intro commands commands' buffer
  have h : addressed 1 commands = true := by decide
  have h' : addressed 1 commands' = true := by decide
  have hreorders : Reorders (fun n => if n = 0 then 0 else 3 - n) commands commands' := by decide
  obtain ⟨run, hrun, -, -, -, -, hreordered⟩ := answersTo_execAll?_start "x @ 1" commands h
  obtain ⟨run', hrun', heq⟩ := hreordered _ commands' h' hreorders
  exact ⟨h, h', hreorders, run, run', hrun, hrun', (heq 1 (by decide)).2⟩

end ImagingLexer
