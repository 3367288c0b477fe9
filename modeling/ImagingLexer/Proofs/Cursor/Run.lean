import ImagingLexer.Cursor.Family
import ImagingLexer.Proofs.Scan

/-! # Runs of a cursor

The replies of a cursor are determined by the replies that it has given before: how many tokens
it has handed out for good says which token is next, and whether it has handed out the end of
the source as an iterator says whether it goes on as one.
-/

namespace ImagingLexer

abbrev History := List (Request × Reply)

def Taken.isEnd : Taken → Bool
  | .ok token => token.kind = .eof
  | .error _ => false

/-- How many tokens were handed out for good. -/
def Request.advances : Request → Reply → Nat
  | .next, _ => 1
  | .step, .stepped (some _) => 1
  | .collect, .collected all => all.length
  | _, _ => 0

def Reply.yieldsEnd : Reply → Bool
  | .stepped (some found) => Taken.isEnd found
  | .collected all => all.any Taken.isEnd
  | _ => false

namespace History

def advances : History → Nat
  | [] => 0
  | (request, reply) :: history => request.advances reply + advances history

def yieldsEnd (history : History) : Bool := history.any (·.2.yieldsEnd)

/-- The number of the token that is next. Nothing is left to hand out after the last. -/
def place (history : History) (buffer : TokenBuffer) : Fin buffer.tokens.size :=
  ⟨min history.advances (buffer.size - 1),
    Nat.lt_of_le_of_lt (Nat.min_le_right _ _) (Nat.sub_one_lt_of_lt buffer.size_pos)⟩

def token (history : History) (buffer : TokenBuffer) : Token := buffer.tokens[history.place buffer]

def reply (history : History) (buffer : TokenBuffer) : Request → Reply
  | .next | .peek => .taken (history.token buffer).surface.value
  | .peekKind => .kind (history.token buffer).kind
  | .isAtEnd => .flag (history.place buffer + 1 = buffer.size)
  | .position => .number (history.place buffer)
  | .step =>
    .stepped (if history.yieldsEnd then none else some (history.token buffer).surface.value)
  | .collect =>
    .collected (if history.yieldsEnd then []
      else (buffer.tokens.toList.drop (history.place buffer)).map (·.surface.value))

@[simp] theorem advances_concat (history : History) (request : Request) (reply : Reply) :
    advances (history ++ [(request, reply)]) = history.advances + request.advances reply := by
  induction history with
  | nil => simp [advances]
  | cons entry history ih => simp [advances, ih, Nat.add_assoc]

@[simp] theorem yieldsEnd_concat (history : History) (request : Request) (reply : Reply) :
    yieldsEnd (history ++ [(request, reply)]) = (history.yieldsEnd || reply.yieldsEnd) := by
  simp [yieldsEnd]

end History

namespace Token

variable {token : Token} {fault : Fault}

theorem value_surface_of_sound (h : token.fault? = none) : token.surface.value = .ok token := by
  simp [surface, diagnostic?, h]

theorem value_surface_of_broken (h : token.fault? = some fault) :
    token.surface.value = .error ⟨fault, token.text, token.span.location⟩ := by
  simp [surface, diagnostic?, h]

end Token

namespace Cursor

variable {buffer : TokenBuffer}

section Performance

theorem performAll_append (cursor : Cursor buffer) (a b : List Request) :
    (cursor.performAll (a ++ b)).value =
      ((cursor.performAll a).value.1 ++ ((cursor.performAll a).value.2.performAll b).value.1,
        ((cursor.performAll a).value.2.performAll b).value.2) := by
  induction a generalizing cursor with
  | nil => rfl
  | cons request a ih =>
    have hrest := ih (cursor.perform request).value.2
    simp only [List.cons_append, performAll, Logged.value_bind, Logged.value_pure, hrest]

theorem length_performAll (cursor : Cursor buffer) (requests : List Request) :
    (cursor.performAll requests).value.1.length = requests.length := by
  induction requests generalizing cursor with
  | nil => rfl
  | cons request requests ih =>
    exact congrArg (· + 1) (ih (cursor.perform request).value.2)

def after (cursor : Cursor buffer) (requests : List Request) : Cursor buffer :=
  (cursor.performAll requests).value.2

def history (cursor : Cursor buffer) (requests : List Request) : History :=
  requests.zip (cursor.performAll requests).value.1

@[simp] theorem after_nil (cursor : Cursor buffer) : cursor.after [] = cursor := rfl

@[simp] theorem history_nil (cursor : Cursor buffer) : cursor.history [] = [] := rfl

theorem after_concat (cursor : Cursor buffer) (requests : List Request) (request : Request) :
    cursor.after (requests ++ [request]) = ((cursor.after requests).perform request).value.2 := by
  simp only [after, performAll_append]
  rfl

theorem history_concat (cursor : Cursor buffer) (requests : List Request) (request : Request) :
    cursor.history (requests ++ [request]) =
      cursor.history requests ++
        [(request, ((cursor.after requests).perform request).value.1)] := by
  simp only [history, performAll_append]
  rw [List.zip_append (cursor.length_performAll requests).symm]
  rfl

end Performance

section Steps

/-- Only the last token ends the source, and it is not broken. -/
def EndsOnce (buffer : TokenBuffer) : Prop :=
  ∀ (i : Nat) (h : i < buffer.tokens.size), buffer.tokens[i].kind = .eof →
    i + 1 = buffer.size ∧ buffer.tokens[i].fault? = none

variable {cursor : Cursor buffer}

theorem isAtEnd_iff (hends : EndsOnce buffer) :
    cursor.isAtEnd = true ↔ cursor.index + 1 = buffer.size := by
  have hkind : cursor.isAtEnd = true ↔ buffer.tokens[cursor.index].kind = .eof :=
    decide_eq_true_iff
  rw [hkind]
  constructor
  · exact fun h => (hends _ cursor.index.isLt h).1
  · exact buffer.kind_getElem_last cursor.index.isLt

theorem isEnd_current (hends : EndsOnce buffer) :
    Taken.isEnd cursor.current.surface.value = cursor.isAtEnd := by
  have hsound := hends _ cursor.index.isLt
  cases hfault : cursor.current.fault? with
  | none =>
    rw [Token.value_surface_of_sound hfault]
    rfl
  | some fault =>
    rw [Token.value_surface_of_broken hfault]
    have hkind : cursor.current.kind ≠ .eof := fun h => by
      cases (hsound h).2.symm.trans hfault
    exact (decide_eq_false hkind).symm

theorem index_advance (cursor : Cursor buffer) :
    (cursor.advance.index : Nat) = min (cursor.index.val + 1) (buffer.size - 1) := by
  have hlt : cursor.index.val < buffer.size := cursor.index.isLt
  unfold advance
  split
  next h =>
    have : cursor.index.val + 1 < buffer.size := h
    simp
    omega
  next h =>
    have : ¬ cursor.index.val + 1 < buffer.size := h
    omega

theorem value_step (cursor : Cursor buffer) :
    cursor.step.value = if cursor.finished then (none, cursor)
      else (some cursor.current.surface.value,
        { cursor with finished := cursor.isAtEnd }.advance) := by
  unfold step
  split <;> rfl

theorem value_collect (cursor : Cursor buffer) :
    cursor.collect.value = match cursor.step.value with
      | (none, moved) => ([], moved)
      | (some taken, moved) => (taken :: moved.collect.value.1, moved.collect.value.2) := by
  rw [collect]
  split
  next h => simp [h]
  next h => simp [h]

theorem value_collect_of_finished (h : cursor.finished = true) :
    cursor.collect.value = ([], cursor) := by
  rw [value_collect, value_step, if_pos h]

theorem value_collect_of_unfinished (hends : EndsOnce buffer) (cursor : Cursor buffer)
    (h : cursor.finished = false) :
    cursor.collect.value.1 =
        (buffer.tokens.toList.drop cursor.index).map (·.surface.value) ∧
      cursor.collect.value.1.any Taken.isEnd = true ∧
      cursor.collect.value.2.finished = true ∧
      cursor.collect.value.2.index + 1 = buffer.size := by
  have hlt : cursor.index.val < buffer.tokens.toList.length := by simp
  have hmoved := { cursor with finished := cursor.isAtEnd }.index_advance
  have hfinished := { cursor with finished := cursor.isAtEnd }.finished_advance
  rw [value_collect, value_step, if_neg (by simp [h]), List.drop_eq_getElem_cons hlt]
  generalize { cursor with finished := cursor.isAtEnd }.advance = moved at hmoved hfinished
  dsimp only at hmoved hfinished ⊢
  rw [List.any_cons, isEnd_current hends]
  cases hend : cursor.isAtEnd with
  | true =>
    have hlast := (isAtEnd_iff hends).1 hend
    have hdrop : buffer.tokens.toList.drop (cursor.index + 1) = [] := by
      rw [List.drop_eq_nil_iff]
      exact Nat.le_of_eq hlast.symm
    have hplace : moved.index.val + 1 = buffer.size := by omega
    rw [value_collect_of_finished (hfinished.trans hend), hdrop]
    exact ⟨rfl, rfl, hfinished.trans hend, hplace⟩
  | false =>
    have hnext : moved.index.val = cursor.index + 1 := by
      have : ¬ cursor.index.val + 1 = buffer.size := fun hlast => by
        rw [(isAtEnd_iff hends).2 hlast] at hend
        cases hend
      have : cursor.index.val < buffer.size := hlt
      omega
    obtain ⟨htokens, hany, hrest⟩ :=
      value_collect_of_unfinished hends moved (hfinished.trans hend)
    rw [hany, htokens, hnext]
    exact ⟨rfl, rfl, hrest⟩
termination_by buffer.size - cursor.index

end Steps

section Tracks

variable {history : History} {cursor : Cursor buffer}

/-- The cursor stands where its history says. -/
structure Tracks (history : History) (cursor : Cursor buffer) : Prop where
  index_eq : cursor.index = history.place buffer
  finished_eq : cursor.finished = history.yieldsEnd
  last_of_finished : cursor.finished = true → cursor.index + 1 = buffer.size

theorem tracks_start (buffer : TokenBuffer) : Tracks [] (start buffer) where
  index_eq := Fin.ext (Nat.zero_min _).symm
  finished_eq := rfl
  last_of_finished h := by cases h

namespace Tracks

theorem current_eq (h : Tracks history cursor) :
    cursor.current = history.token buffer :=
  congrArg (fun index : Fin buffer.tokens.size => buffer.tokens[index]) h.index_eq

theorem stay (h : Tracks history cursor) {request : Request} {reply : Reply}
    (hadvances : request.advances reply = 0) (hend : reply.yieldsEnd = false) :
    Tracks (history ++ [(request, reply)]) cursor where
  index_eq := by
    rw [h.index_eq]
    simp [History.place, hadvances]
  finished_eq := by simp [h.finished_eq, hend]
  last_of_finished := h.last_of_finished

theorem move (h : Tracks history cursor) {request : Request} {reply : Reply}
    {moved : Cursor buffer} (hadvances : request.advances reply = 1)
    (hindex : moved.index = cursor.advance.index)
    (hfinished : moved.finished = (cursor.finished || reply.yieldsEnd))
    (hlast : moved.finished = true → cursor.index + 1 = buffer.size) :
    Tracks (history ++ [(request, reply)]) moved where
  index_eq := by
    rw [Fin.ext_iff, hindex, index_advance, h.index_eq]
    simp only [History.place, History.advances_concat, hadvances]
    omega
  finished_eq := by simp [hfinished, h.finished_eq]
  last_of_finished hmoved := by
    have := hlast hmoved
    rw [hindex, index_advance]
    omega

theorem exhaust (h : Tracks history cursor) {request : Request} {reply : Reply}
    {moved : Cursor buffer} (hadvances : request.advances reply = buffer.size - cursor.index)
    (hend : reply.yieldsEnd = true) (hfinished : moved.finished = true)
    (hlast : moved.index + 1 = buffer.size) :
    Tracks (history ++ [(request, reply)]) moved where
  index_eq := by
    rw [h.index_eq] at hadvances
    simp only [Fin.ext_iff, History.place, History.advances_concat, hadvances]
    omega
  finished_eq := by simp [hfinished, hend]
  last_of_finished _ := hlast

theorem value_perform (hends : EndsOnce buffer) (h : Tracks history cursor) (request : Request) :
    (cursor.perform request).value.1 = history.reply buffer request := by
  cases request with
  | next | peek => exact congrArg (fun token => Reply.taken token.surface.value) h.current_eq
  | peekKind => exact congrArg (fun token => Reply.kind token.kind) h.current_eq
  | isAtEnd =>
    have hflag : cursor.isAtEnd = decide (history.place buffer + 1 = buffer.size) := by
      rw [Bool.eq_iff_iff, isAtEnd_iff hends, h.index_eq, decide_eq_true_iff]
    exact congrArg Reply.flag hflag
  | position =>
    exact congrArg (fun index : Fin buffer.tokens.size => Reply.number index) h.index_eq
  | step =>
    show Reply.stepped cursor.step.value.1 = _
    rw [value_step, h.finished_eq, h.current_eq, History.reply]
    split <;> rfl
  | collect =>
    show Reply.collected cursor.collect.value.1 = _
    cases hfinished : cursor.finished with
    | true =>
      rw [value_collect_of_finished hfinished, History.reply, ← h.finished_eq, if_pos hfinished]
    | false =>
      rw [(value_collect_of_unfinished hends cursor hfinished).1, History.reply, ← h.finished_eq,
        if_neg (by simp [hfinished]), h.index_eq]

theorem perform (hends : EndsOnce buffer) (h : Tracks history cursor) (request : Request) :
    Tracks (history ++ [(request, (cursor.perform request).value.1)])
      (cursor.perform request).value.2 := by
  cases request with
  | next =>
    refine h.move rfl rfl ?_ ?_
    · exact cursor.finished_advance.trans (Bool.or_false _).symm
    · exact fun hfinished => h.last_of_finished (cursor.finished_advance.symm.trans hfinished)
  | peek | peekKind | isAtEnd | position => exact h.stay rfl rfl
  | step =>
    show Tracks (history ++ [(.step, .stepped cursor.step.value.1)]) cursor.step.value.2
    rw [value_step]
    cases hfinished : cursor.finished with
    | true => exact h.stay rfl rfl
    | false =>
      have hmoved := { cursor with finished := cursor.isAtEnd }.finished_advance
      have hindex := { cursor with finished := cursor.isAtEnd }.index_advance
      refine h.move rfl ?_ ?_ fun hend => ?_
      · exact Fin.ext (hindex.trans cursor.index_advance.symm)
      · rw [hfinished, Bool.false_or]
        exact hmoved.trans (isEnd_current hends).symm
      · exact (isAtEnd_iff hends).1 (hmoved.symm.trans hend)
  | collect =>
    show Tracks (history ++ [(.collect, .collected cursor.collect.value.1)]) cursor.collect.value.2
    cases hfinished : cursor.finished with
    | true =>
      rw [value_collect_of_finished hfinished]
      exact h.stay rfl rfl
    | false =>
      obtain ⟨htokens, hany, hmoved, hlast⟩ :=
        value_collect_of_unfinished hends cursor hfinished
      refine h.exhaust ?_ hany hmoved hlast
      simp [Request.advances, htokens, TokenBuffer.size]

end Tracks

/-- Whatever a new cursor is asked, it stays on its track. -/
theorem tracks_after_start (hends : EndsOnce buffer) (requests : List Request) :
    Tracks ((start buffer).history requests) ((start buffer).after requests) := by
  induction requests using List.reverseRecOn with
  | nil => exact tracks_start buffer
  | append_singleton requests request ih =>
    rw [history_concat, after_concat]
    exact ih.perform hends request

end Tracks

end Cursor

/-- What is read of a token: the token, or what is wrong with it if it is broken. -/
def Token.IsRead (token : Token) (taken : Taken) : Prop :=
  (token.kind ≠ .error ∧ taken = .ok token) ∨
    ∃ fault, token.kind = .error ∧ token.value = .error fault ∧
      taken = .error ⟨fault, token.text, token.span.location⟩

section Source

theorem endsOnce_tokenize (source : String) : Cursor.EndsOnce (tokenize source).value := by
  intro i hi hkind
  have htokens := tokens_tokenize source
  have hsize := congrArg List.length htokens
  rw [List.length_append, List.length_singleton, Array.length_toList] at hsize
  have hget := Array.getElem?_eq_getElem hi
  rw [← Array.getElem?_toList, htokens] at hget
  rcases Nat.lt_or_ge i (tokensAfter [] (lexemes source.toList)).length with hlt | hge
  · rw [List.getElem?_append_left hlt] at hget
    exact absurd hkind (kind_ne_eof_of_mem (List.mem_of_getElem? hget))
  · obtain rfl : i = (tokensAfter [] (lexemes source.toList)).length := by omega
    rw [List.getElem?_concat_length] at hget
    exact ⟨hsize.symm, by rw [← Option.some.inj hget]; rfl⟩

theorem isRead_surface {source : String} {token : Token}
    (h : token ∈ (tokenize source).value.tokens.toList) : token.IsRead token.surface.value := by
  have hkind := isSome_fault?_of_mem_tokenize h
  cases hfault : token.fault? with
  | none =>
    rw [hfault] at hkind
    exact .inl ⟨by simpa using hkind, Token.value_surface_of_sound hfault⟩
  | some fault =>
    rw [hfault] at hkind
    exact .inr ⟨fault, hkind.1 rfl, Token.fault?_eq_some_iff.1 hfault,
      Token.value_surface_of_broken hfault⟩

end Source

/-- A cursor replies to each request as its history calls for, and stands where it says. -/
theorem history_start_concat (source : String) (requests : List Request) (request : Request) :
    let buffer := (tokenize source).value
    let history := (Cursor.start buffer).history requests
    let cursor := (Cursor.start buffer).after requests
    cursor.position < buffer.size ∧
      cursor.position = min history.advances (buffer.size - 1) ∧
      (Cursor.start buffer).history (requests ++ [request]) =
        history ++ [(request, history.reply buffer request)] ∧
      (request ∈ [.peek, .peekKind, .isAtEnd, .position] →
        (Cursor.start buffer).after (requests ++ [request]) = cursor) ∧
      ∀ token ∈ buffer.tokens.toList, token.IsRead token.surface.value := by
  intro buffer history cursor
  have hends := endsOnce_tokenize source
  have htracks := Cursor.tracks_after_start hends requests
  refine ⟨cursor.index.isLt, congrArg Fin.val htracks.index_eq, ?_, fun hrequest => ?_,
    fun token hmem => isRead_surface hmem⟩
  · rw [Cursor.history_concat, htracks.value_perform hends]
  · rw [Cursor.after_concat]
    simp only [List.mem_cons, List.not_mem_nil, or_false] at hrequest
    rcases hrequest with rfl | rfl | rfl | rfl <;> rfl

theorem history_start_concat_peek :
    Request.peek ∈ [.peek, .peekKind, .isAtEnd, .position] ∧
      (Cursor.start (tokenize "x @").value).after ([.next] ++ [.peek]) =
        (Cursor.start (tokenize "x @").value).after [.next] ∧
      (⟨.error, "@", ⟨2, 3, 0, 2⟩, .error .illegalCharacter⟩ : Token).IsRead
        (.error ⟨.illegalCharacter, "@", ⟨0, 2⟩⟩) := by
  obtain ⟨-, -, -, hunmoved, hread⟩ := history_start_concat "x @" [.next] .peek
  have htoken : (tokenize "x @").value.tokens.toList[1]? =
      some ⟨.error, "@", ⟨2, 3, 0, 2⟩, .error .illegalCharacter⟩ := by decide +kernel
  exact ⟨by decide, hunmoved (by decide), hread _ (List.mem_of_getElem? htoken)⟩

end ImagingLexer
