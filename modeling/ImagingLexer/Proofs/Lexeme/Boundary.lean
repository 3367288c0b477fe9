import ImagingLexer.Lexeme.First
import Mathlib.Data.List.TakeWhile

/-! # Boundaries of lexemes

A lexeme is well formed if its parts are made of the right characters, and it stops before
a character that cannot continue it. These two properties and the text itself determine
the first lexeme of a text; one character of lookahead is all that they read.
-/

namespace ImagingLexer

section Runs

variable {α : Type} {p : α → Bool} {run rest : List α}

theorem takeWhile_run (hrun : ∀ c ∈ run, p c = true) (hrest : ∀ c ∈ rest.head?, p c = false) :
    (run ++ rest).takeWhile p = run := by
  rw [List.takeWhile_append_of_pos hrun]
  cases rest with
  | nil => simp
  | cons c rest => simp [hrest c rfl]

theorem dropWhile_run (hrun : ∀ c ∈ run, p c = true) (hrest : ∀ c ∈ rest.head?, p c = false) :
    (run ++ rest).dropWhile p = rest := by
  rw [List.dropWhile_append_of_pos hrun]
  cases rest with
  | nil => rfl
  | cons c rest => simp [hrest c rfl]

theorem eq_false_of_mem_head?_dropWhile {l : List α} {c : α}
    (h : c ∈ (l.dropWhile p).head?) : p c = false := by
  have := List.head?_dropWhile_not p l
  rw [Option.mem_def.1 h] at this
  simpa using this

end Runs

namespace Operator

/-- No character before `next` was left out of the operator. -/
def StopsBefore (op : Operator) (next : Option Char) : Prop :=
  ∀ c ∈ next, ofChars? (op.chars ++ [c]) = none

theorem ofChars?_eq_none_of_length {text : List Char} (h : 2 < text.length) :
    ofChars? text = none := by
  rw [Option.eq_none_iff_forall_ne_some]
  intro op hop
  have := length_chars op
  rw [chars_of_ofChars? hop] at this
  omega

theorem ofChars?_pair_eq_none {c : Char} (h : ofChars? [c] = none) (d : Char) :
    ofChars? [c, d] = none := by
  rw [Option.eq_none_iff_forall_ne_some]
  intro op hop
  have hchars := chars_of_ofChars? hop
  cases op <;> simp only [chars, List.cons.injEq, and_true, reduceCtorEq, and_false] at hchars
  all_goals
    obtain ⟨rfl, -⟩ := hchars
    exact absurd h (by decide)

theorem stopsBefore_of_first? {text rest : List Char} {op : Operator}
    (h : first? text = some (op, rest)) : op.StopsBefore rest.head? := by
  intro c hc
  unfold first? at h
  split at h
  next op' hop =>
    obtain ⟨rfl, rfl⟩ := Prod.mk.inj (Option.some.inj h)
    rw [chars_of_ofChars? hop]
    match text, hc with
    | _ :: _ :: _, _ => exact ofChars?_eq_none_of_length (by simp)
  next hnone =>
    obtain ⟨op', hop, heq⟩ := Option.map_eq_some_iff.1 h
    obtain ⟨rfl, rfl⟩ := Prod.mk.inj heq
    rw [chars_of_ofChars? hop]
    match text, hc with
    | _ :: d :: _, hc =>
      obtain rfl : d = c := by simpa using hc
      exact hnone

theorem first?_of_stopsBefore {rest : List Char} {op : Operator}
    (h : op.StopsBefore rest.head?) : first? (op.chars ++ rest) = some (op, rest) := by
  have hop := ofChars?_chars op
  unfold first?
  rcases length_chars op with hlen | hlen
  · obtain ⟨c, hc⟩ := List.length_eq_one_iff.1 hlen
    rw [hc] at hop ⊢
    cases rest with
    | nil => simp [hop]
    | cons d rest =>
      have hnone := h d rfl
      rw [hc] at hnone
      simp only [List.cons_append, List.nil_append] at hnone
      simp [hop, hnone]
  · match hcd : op.chars, hlen with
    | [c, d], _ =>
      rw [hcd] at hop
      simp [hop]

theorem first?_cons_eq_none_iff {c : Char} {rest : List Char} :
    first? (c :: rest) = none ↔ ofChars? [c] = none := by
  constructor
  · intro h
    unfold first? at h
    split at h
    · simp at h
    · simpa using h
  · intro h
    cases rest with
    | nil => simp [first?, h]
    | cons d rest => simp [first?, h, ofChars?_pair_eq_none h d]

end Operator

namespace Lexeme

/-- A whole part is a lone zero, or digits of which the first is not zero. -/
inductive IsWhole : List Char → Prop
  | zero : IsWhole ['0']
  | digits {d : Char} {rest : List Char} : d.isDigit = true → d ≠ '0' →
      (∀ c ∈ rest, c.isDigit = true) → IsWhole (d :: rest)

theorem IsWhole.isDigit {whole : List Char} (h : IsWhole whole) :
    ∀ c ∈ whole, c.isDigit = true := by
  cases h with
  | zero => exact List.forall_mem_singleton.2 rfl
  | digits hd _ hrest => exact List.forall_mem_cons.2 ⟨hd, hrest⟩

theorem IsWhole.ne_nil {whole : List Char} (h : IsWhole whole) : whole ≠ [] := by
  cases h <;> simp

structure IsStray (c : Char) : Prop where
  not_blank : isBlank c = false
  ne_hash : c ≠ '#'
  ne_quote : c ≠ '"'
  not_digit : c.isDigit = false
  not_nameStart : isNameStart c = false
  not_operator : Operator.ofChars? [c] = none

def WellFormed : Lexeme → Prop
  | blank c => isBlank c = true
  | comment body => ∀ c ∈ body, c ≠ '\n'
  | operator _ => True
  | integer digits => IsWhole digits
  | decimal whole fraction =>
    IsWhole whole ∧ fraction ≠ [] ∧ ∀ c ∈ fraction, c.isDigit = true
  | openDecimal whole => IsWhole whole
  | word letters => ∃ c rest, letters = c :: rest ∧ isNameStart c = true ∧
      ∀ d ∈ rest, isNamePart d = true
  | quoted content | cutQuoted content | openQuoted content =>
    ∀ c ∈ content, isStringPart c = true
  | stray c => IsStray c

/-- The lexeme ends where the next character is `next`, or where the text ends. -/
def StopsBefore : Lexeme → Option Char → Prop
  | blank _, _ | quoted _, _ | stray _, _ => True
  | comment _, next => ∀ c ∈ next, c = '\n'
  | operator op, next => op.StopsBefore next
  | integer digits, next => ∀ c ∈ next, c ≠ '.' ∧ (digits ≠ ['0'] → c.isDigit = false)
  | decimal _ _, next | openDecimal _, next => ∀ c ∈ next, c.isDigit = false
  | word _, next => ∀ c ∈ next, isNamePart c = false
  | cutQuoted _, next => ∃ c, next = some c ∧ isStringPart c = false ∧ c ≠ '"'
  | openQuoted _, next => next = none

theorem firstNumber_spec {whole rest : List Char} (hwhole : IsWhole whole)
    (hrest : whole ≠ ['0'] → ∀ c ∈ rest.head?, c.isDigit = false) :
    (firstNumber whole rest).1.WellFormed ∧
      (firstNumber whole rest).1.StopsBefore (firstNumber whole rest).2.head? := by
  unfold firstNumber
  split
  next after =>
    split
    next hnone =>
      refine ⟨hwhole, fun c hc => ?_⟩
      cases after with
      | nil => simp at hc
      | cons d after =>
        obtain rfl : d = c := by simpa using hc
        by_contra hdigit
        simp [hdigit] at hnone
    next hsome =>
      refine ⟨⟨hwhole, hsome, fun c hc => List.mem_takeWhile_imp hc⟩, fun c hc => ?_⟩
      exact eq_false_of_mem_head?_dropWhile hc
  next hdot =>
    refine ⟨hwhole, fun c hc => ⟨?_, fun hne => hrest hne c hc⟩⟩
    rintro rfl
    obtain ⟨after, rfl⟩ := List.head?_eq_some_iff.1 hc
    exact hdot after rfl

theorem firstQuoted_spec (rest : List Char) :
    (firstQuoted rest).1.WellFormed ∧
      (firstQuoted rest).1.StopsBefore (firstQuoted rest).2.head? := by
  have hcontent : ∀ c ∈ rest.takeWhile isStringPart, isStringPart c = true :=
    fun c hc => List.mem_takeWhile_imp hc
  unfold firstQuoted
  dsimp only
  split
  next => exact ⟨hcontent, rfl⟩
  next => exact ⟨hcontent, trivial⟩
  next after hnil hquote =>
    refine ⟨hcontent, ?_⟩
    cases hrest : rest.dropWhile isStringPart with
    | nil => exact absurd hrest hnil
    | cons c after =>
      refine ⟨c, rfl, eq_false_of_mem_head?_dropWhile (by rw [hrest]; rfl), ?_⟩
      rintro rfl
      exact hquote after hrest

theorem first_spec (c : Char) (rest : List Char) :
    (first c rest).1.WellFormed ∧
      (first c rest).1.StopsBefore (first c rest).2.head? := by
  unfold first
  split
  next hblank => exact ⟨hblank, trivial⟩
  next hblank =>
  split
  next hhash =>
    refine ⟨fun d hd => by simpa using List.mem_takeWhile_imp hd, fun d hd => ?_⟩
    simpa using eq_false_of_mem_head?_dropWhile hd
  next hhash =>
  split
  next => exact firstQuoted_spec rest
  next hquote =>
  split
  next hzero =>
    subst hzero
    exact firstNumber_spec .zero (fun hne => absurd rfl hne)
  next hzero =>
  split
  next hdigit =>
    refine firstNumber_spec (.digits hdigit hzero fun d hd => List.mem_takeWhile_imp hd) ?_
    exact fun _ d hd => eq_false_of_mem_head?_dropWhile hd
  next hdigit =>
  split
  next hname =>
    refine ⟨⟨c, _, rfl, hname, fun d hd => List.mem_takeWhile_imp hd⟩, fun d hd => ?_⟩
    exact eq_false_of_mem_head?_dropWhile hd
  next hname =>
  split
  next op after hop => exact ⟨trivial, Operator.stopsBefore_of_first? hop⟩
  next hnone =>
    refine ⟨⟨by simpa using hblank, hhash, hquote, by simpa using hdigit, ?_, ?_⟩, trivial⟩
    · simpa using hname
    · exact Operator.first?_cons_eq_none_iff.1 hnone

/-- A character that is neither blank nor opens a comment or a string. -/
def Plain (c : Char) : Prop := isBlank c = false ∧ c ≠ '#' ∧ c ≠ '"'

theorem plain_of_isNamePart {c : Char} (h : isNamePart c = true) : Plain c := by
  refine ⟨?_, ?_, ?_⟩
  · rw [Bool.eq_false_iff]
    intro hblank
    obtain rfl | rfl | rfl | rfl := isBlank_iff.1 hblank <;> exact absurd h (by decide)
  all_goals
    rintro rfl
    exact absurd h (by decide)

theorem plain_of_isDigit {c : Char} (h : c.isDigit = true) : Plain c :=
  plain_of_isNamePart (by simp [isNamePart, h])

theorem plain_of_isNameStart {c : Char} (h : isNameStart c = true) : Plain c :=
  plain_of_isNamePart (isNamePart_of_isNameStart h)

theorem isDigit_eq_false_of_isNameStart {c : Char} (h : isNameStart c = true) :
    c.isDigit = false := by
  simp only [isNameStart, Bool.or_eq_true, decide_eq_true_eq] at h
  obtain (halpha | rfl) | rfl := h
  · have hletters : c.isAlpha = (decide ('A'.val ≤ c.val ∧ c.val ≤ 'Z'.val) ||
        (decide ('a'.val ≤ c.val) && decide (c.val ≤ 'z'.val))) := rfl
    have hdigits : c.isDigit = (decide ('0'.val ≤ c.val) && decide (c.val ≤ '9'.val)) := rfl
    rw [hletters] at halpha
    rw [hdigits]
    simp only [Bool.or_eq_true, Bool.and_eq_true, decide_eq_true_eq, Bool.and_eq_false_iff,
      decide_eq_false_iff_not, UInt32.le_iff_toNat_le] at halpha ⊢
    simp at halpha ⊢
    omega
  · decide
  · decide

theorem operator_head (op : Operator) :
    ∀ c ∈ op.chars.head?, Plain c ∧ c.isDigit = false ∧ isNameStart c = false := by
  cases op <;> simp [Operator.chars, Plain] <;> decide

theorem first_whole {whole after rest : List Char} {c : Char} (hwhole : IsWhole whole)
    (hafter : whole ≠ ['0'] → ∀ d ∈ after.head?, d.isDigit = false)
    (htext : whole ++ after = c :: rest) : first c rest = firstNumber whole after := by
  cases hwhole with
  | zero =>
    obtain ⟨rfl, rfl⟩ := List.cons.inj htext
    simp [first, isBlank]
  | digits hd hzero hrest =>
    obtain ⟨rfl, rfl⟩ := List.cons.inj htext
    obtain ⟨hblank, hhash, hquote⟩ := plain_of_isDigit hd
    have hstop := hafter (by simp [hzero])
    simp [first, hblank, hhash, hquote, hzero, hd, takeWhile_run hrest hstop,
      dropWhile_run hrest hstop]

theorem first_of_wellFormed {lexeme : Lexeme} {after rest : List Char} {c : Char}
    (hparts : lexeme.WellFormed) (hstop : lexeme.StopsBefore after.head?)
    (htext : lexeme.text ++ after = c :: rest) : first c rest = (lexeme, after) := by
  cases lexeme with
  | blank d =>
    obtain ⟨rfl, rfl⟩ := List.cons.inj htext
    simp [first, show isBlank d = true from hparts]
  | comment body =>
    obtain ⟨rfl, rfl⟩ := List.cons.inj htext
    have hbody : ∀ c ∈ body, (!decide (c = '\n')) = true :=
      fun c hc => by simpa using hparts c hc
    have hnext : ∀ c ∈ after.head?, (!decide (c = '\n')) = false :=
      fun c hc => by simpa using hstop c hc
    simp [first, isBlank, takeWhile_run hbody hnext, dropWhile_run hbody hnext]
  | operator op =>
    have hfirst := Operator.first?_of_stopsBefore hstop
    have hhead := operator_head op
    simp only [text] at htext
    rw [htext] at hfirst
    obtain ⟨d, ds, hchars⟩ := List.exists_cons_of_ne_nil op.chars_ne_nil
    rw [hchars] at htext hhead
    obtain ⟨rfl, -⟩ := List.cons.inj htext
    obtain ⟨⟨hblank, hhash, hquote⟩, hdigit, hname⟩ := hhead d rfl
    have hzero : d ≠ '0' := by
      rintro rfl
      exact absurd hdigit (by decide)
    simp [first, hblank, hhash, hquote, hzero, hdigit, hname, hfirst]
  | integer digits =>
    rw [first_whole hparts (fun hne d hd => (hstop d hd).2 hne) htext]
    unfold firstNumber
    split
    next after => exact absurd rfl (hstop '.' rfl).1
    next => rfl
  | decimal whole fraction =>
    obtain ⟨hwhole, hsome, hfraction⟩ := hparts
    simp only [text, List.append_assoc] at htext
    rw [first_whole hwhole (by simp) htext]
    simp only [firstNumber, List.cons_append, takeWhile_run hfraction hstop,
      dropWhile_run hfraction hstop]
  | openDecimal whole =>
    simp only [text, List.append_assoc] at htext
    rw [first_whole hparts (by simp) htext]
    have hnone : after.takeWhile Char.isDigit = [] :=
      takeWhile_run (List.forall_mem_nil _) hstop
    simp [firstNumber, hnone]
  | word letters =>
    obtain ⟨d, ds, rfl, hd, hds⟩ := hparts
    obtain ⟨rfl, rfl⟩ := List.cons.inj htext
    obtain ⟨hblank, hhash, hquote⟩ := plain_of_isNameStart hd
    have hdigit := isDigit_eq_false_of_isNameStart hd
    have hzero : d ≠ '0' := by
      rintro rfl
      exact absurd hdigit (by decide)
    simp [first, hblank, hhash, hquote, hzero, hdigit, hd, takeWhile_run hds hstop,
      dropWhile_run hds hstop]
  | quoted content =>
    have hnext : ∀ c ∈ ('"' :: after).head?, isStringPart c = false := by
      rintro c ⟨⟩
      decide
    simp only [text, List.cons_append, List.append_assoc, List.nil_append] at htext
    obtain ⟨rfl, rfl⟩ := List.cons.inj htext
    simp [first, isBlank, firstQuoted, takeWhile_run hparts hnext, dropWhile_run hparts hnext]
  | cutQuoted content =>
    obtain ⟨d, hd, hpart, hquote⟩ := hstop
    obtain ⟨ds, rfl⟩ := List.head?_eq_some_iff.1 hd
    have hnext : ∀ c ∈ (d :: ds).head?, isStringPart c = false := by
      rintro c ⟨⟩
      exact hpart
    obtain ⟨rfl, rfl⟩ := List.cons.inj htext
    simp [first, isBlank, firstQuoted, takeWhile_run hparts hnext, dropWhile_run hparts hnext,
      hquote]
  | openQuoted content =>
    obtain rfl := List.head?_eq_none_iff.1 hstop
    obtain ⟨rfl, rfl⟩ := List.cons.inj htext
    have hall : content.dropWhile isStringPart = [] := List.dropWhile_eq_nil_iff.2 hparts
    have hself : content.takeWhile isStringPart = content := List.takeWhile_eq_self_iff.2 hparts
    simp [first, isBlank, firstQuoted, hall, hself]
  | stray d =>
    obtain ⟨rfl, rfl⟩ := List.cons.inj htext
    have hzero : d ≠ '0' := by
      rintro rfl
      exact absurd hparts.not_digit (by decide)
    have hnone : Operator.first? (d :: after) = none :=
      Operator.first?_cons_eq_none_iff.2 hparts.not_operator
    simp [first, hparts.not_blank, hparts.ne_hash, hparts.ne_quote, hzero, hparts.not_digit,
      hparts.not_nameStart, hnone]

theorem first_eq_iff {c : Char} {rest after : List Char} {lexeme : Lexeme} :
    first c rest = (lexeme, after) ↔
      lexeme.WellFormed ∧ lexeme.StopsBefore after.head? ∧ lexeme.text ++ after = c :: rest := by
  constructor
  · intro h
    have hspec := first_spec c rest
    have htext := text_append_first c rest
    rw [h] at hspec htext
    exact ⟨hspec.1, hspec.2, htext⟩
  · rintro ⟨hparts, hstop, htext⟩
    exact first_of_wellFormed hparts hstop htext

def separators : List Char := [' ', '\t', '\r', '\n', '#']

theorem mem_separators_iff {c : Char} : c ∈ separators ↔ isBlank c = true ∨ c = '#' := by
  simp [separators, isBlank, or_assoc]

theorem class_of_mem_separators {c : Char} (h : c ∈ separators) :
    isNamePart c = false ∧ c.isDigit = false ∧ c ≠ '.' ∧ c ≠ '"' ∧
      (c ≠ ' ' → isStringPart c = false) ∧
      ∀ op ∈ Operator.all, Operator.ofChars? (op.chars ++ [c]) = none := by
  simp only [separators, List.mem_cons, List.not_mem_nil, or_false] at h
  rcases h with rfl | rfl | rfl | rfl | rfl <;> decide

/-- Apart from a string that is not closed, every lexeme stops before a separator, and a
comment before a line feed. A string that is cut short would go on with a space. -/
theorem stopsBefore_separator {lexeme : Lexeme} {c : Char} (hc : c ∈ separators)
    (hopen : ∀ content, lexeme ≠ openQuoted content)
    (hcut : ∀ content, lexeme = cutQuoted content → c ≠ ' ')
    (hcomment : ∀ body, lexeme = comment body → c = '\n') : lexeme.StopsBefore (some c) := by
  obtain ⟨hname, hdigit, hpoint, hquote, hpart, hoperator⟩ := class_of_mem_separators hc
  cases lexeme with
  | comment body =>
    rintro d ⟨⟩
    exact hcomment body rfl
  | operator op =>
    rintro d ⟨⟩
    exact hoperator op op.mem_all
  | integer digits =>
    rintro d ⟨⟩
    exact ⟨hpoint, fun _ => hdigit⟩
  | decimal whole fraction | openDecimal whole =>
    rintro d ⟨⟩
    exact hdigit
  | word letters =>
    rintro d ⟨⟩
    exact hname
  | cutQuoted content => exact ⟨c, rfl, hpart (hcut content rfl), hquote⟩
  | openQuoted content => exact absurd rfl (hopen content)
  | _ => trivial

theorem ne_lineFeed {p : Char → Bool} {run : List Char} (hrun : ∀ c ∈ run, p c = true)
    (hp : p '\n' = false := by decide) : '\n' ∉ run := by
  intro hmem
  rw [hrun _ hmem] at hp
  cases hp

theorem WellFormed.eq_blank {lexeme : Lexeme} (h : lexeme.WellFormed)
    (hmem : '\n' ∈ lexeme.text) : lexeme = blank '\n' := by
  cases lexeme with
  | blank c =>
    obtain rfl : '\n' = c := by simpa [text] using hmem
    rfl
  | comment body =>
    rcases List.mem_cons.1 hmem with heq | hmem
    · cases heq
    · exact absurd rfl (h _ hmem)
  | operator op =>
    refine absurd hmem ?_
    cases op <;> decide
  | integer digits => exact absurd hmem (ne_lineFeed h.isDigit)
  | decimal whole fraction =>
    obtain ⟨hwhole, -, hfraction⟩ := h
    simp [text, ne_lineFeed hwhole.isDigit, ne_lineFeed hfraction] at hmem
  | openDecimal whole =>
    simp [text, ne_lineFeed (IsWhole.isDigit h)] at hmem
  | word letters =>
    obtain ⟨c, rest, rfl, hc, hrest⟩ := h
    rcases List.mem_cons.1 hmem with rfl | hmem
    · cases hc
    · exact absurd hmem (ne_lineFeed hrest)
  | quoted content => simp [text, ne_lineFeed h] at hmem
  | cutQuoted content => simp [text, ne_lineFeed h] at hmem
  | openQuoted content => simp [text, ne_lineFeed h] at hmem
  | stray c =>
    obtain rfl : '\n' = c := by simpa [text] using hmem
    cases h.not_blank

end Lexeme

end ImagingLexer
