import ImagingLexer.Proofs.Lexeme.Sequence
import Mathlib.Data.List.Basic

/-! # The grammar of lexemes

Six rules say which words may stand in a source. A word that a rule admits is the longest
at the head of a text exactly if its lexeme stops before what follows, so one character
of lookahead finds the longest word.
-/

namespace ImagingLexer

open Lexeme

/-- ASCII letters, `_` and `$`. -/
def StartsName (c : Char) : Prop := c.isAlpha = true ∨ c = '_' ∨ c = '$'

def ContinuesName (c : Char) : Prop := c.isAlphanum = true ∨ c = '_' ∨ c = '$'

/-- ASCII letters and digits, `_`, `$` and the space. -/
def IsContent (c : Char) : Prop := c.isAlphanum = true ∨ c = '_' ∨ c = '$' ∨ c = ' '

instance : DecidablePred StartsName := fun _ => inferInstanceAs (Decidable (_ ∨ _))

instance : DecidablePred ContinuesName := fun _ => inferInstanceAs (Decidable (_ ∨ _))

instance : DecidablePred IsContent := fun _ => inferInstanceAs (Decidable (_ ∨ _))

section Classes

variable {c : Char} {content : List Char}

theorem isNameStart_iff : isNameStart c = true ↔ StartsName c := by
  simp only [isNameStart, StartsName, Bool.or_eq_true, decide_eq_true_eq, or_assoc]

theorem isNamePart_iff : isNamePart c = true ↔ ContinuesName c := by
  simp only [isNamePart, isNameStart_iff, StartsName, ContinuesName, Char.isAlphanum,
    Bool.or_eq_true]
  tauto

theorem isStringPart_iff : isStringPart c = true ↔ IsContent c := by
  simp only [isStringPart, isNamePart_iff, ContinuesName, IsContent, Bool.or_eq_true,
    decide_eq_true_eq, or_assoc]

theorem isStringPart_of_isContent (h : ∀ c ∈ content, IsContent c) :
    ∀ c ∈ content, isStringPart c = true :=
  fun c hc => isStringPart_iff.2 (h c hc)

theorem isContent_of_isStringPart (h : ∀ c ∈ content, isStringPart c = true) :
    ∀ c ∈ content, IsContent c :=
  fun c hc => isStringPart_iff.1 (h c hc)

end Classes

def Operator.spelling (op : Operator) : String := String.ofList op.chars

inductive Rule
  | blank
  | comment
  | operator
  | number
  | name
  | string
  deriving DecidableEq, Repr

namespace Rule

/-- The operators of the grammar, each with the word that spells it. -/
def operators : List (String × Operator) :=
  [("(", .leftParen), (")", .rightParen), ("[", .leftSquare), ("]", .rightSquare),
    ("+", .plus), ("*", .times), ("/", .div), ("%", .mod), ("&", .and), ("|", .or),
    (";", .semicolon), (",", .comma), ("^", .returns), ("<<", .leftAngle), ("<=", .le),
    ("<-", .leftArrow), ("<", .lt), (">>", .rightAngle), (">=", .ge), (">", .gt),
    ("->", .rightArrow), ("-", .minus), ("!=", .notEquals), ("!", .bang), ("==", .equals),
    ("=", .assign)]

inductive Admits : Rule → List Char → Prop
  | blank {c : Char} : c ∈ [' ', '\t', '\r', '\n'] → Admits blank [c]
  | comment {body : List Char} : '\n' ∉ body → Admits comment ('#' :: body)
  | operator {text : String} {op : Operator} : (text, op) ∈ operators →
      Admits operator text.toList
  | integer {whole : List Char} : IsWhole whole → Admits number whole
  | decimal {whole fraction : List Char} : IsWhole whole →
      (∀ c ∈ fraction, c.isDigit = true) → Admits number (whole ++ '.' :: fraction)
  | name {c : Char} {letters : List Char} : StartsName c →
      (∀ d ∈ letters, ContinuesName d) → Admits name (c :: letters)
  | openString {content : List Char} : (∀ c ∈ content, IsContent c) →
      Admits string ('"' :: content)
  | closedString {content : List Char} : (∀ c ∈ content, IsContent c) →
      Admits string ('"' :: content ++ ['"'])

/-- No rule admits a longer word at the head of `word ++ rest`. -/
structure Longest (rule : Rule) (word rest : List Char) : Prop where
  admits : rule.Admits word
  longest : ∀ (rule' : Rule) (word' : List Char), rule'.Admits word' →
    word' <+: word ++ rest → word'.length ≤ word.length

theorem mem_operators_iff {text : String} {op : Operator} :
    (text, op) ∈ operators ↔ text = op.spelling := by
  constructor
  · have hall : ∀ entry ∈ operators, entry.1 = entry.2.spelling := by decide
    exact hall (text, op)
  · rintro rfl
    cases op <;> decide

theorem admits_operator_iff {word : List Char} :
    operator.Admits word ↔ ∃ op : Operator, op.chars = word := by
  constructor
  · intro h
    cases h with
    | @operator text op h =>
      exact ⟨op, by simp [mem_operators_iff.1 h, Operator.spelling]⟩
  · rintro ⟨op, rfl⟩
    have hmem : (op.spelling, op) ∈ operators := mem_operators_iff.2 rfl
    simpa [Operator.spelling] using Admits.operator hmem

theorem admits_name_iff {word : List Char} :
    name.Admits word ↔ (Lexeme.word word).WellFormed := by
  constructor
  · intro h
    cases h with
    | name hc hletters =>
      exact ⟨_, _, rfl, isNameStart_iff.2 hc, fun d hd => isNamePart_iff.2 (hletters d hd)⟩
  · rintro ⟨c, letters, rfl, hc, hletters⟩
    exact .name (isNameStart_iff.1 hc) fun d hd => isNamePart_iff.1 (hletters d hd)

def ofFirst? (c : Char) : Option Rule :=
  if isBlank c then some blank
  else if c = '#' then some comment
  else if c = '"' then some string
  else if c.isDigit then some number
  else if isNameStart c then some name
  else if (Operator.ofChars? [c]).isSome then some operator
  else none

theorem ofFirst?_of_isDigit {c : Char} (h : c.isDigit = true) : ofFirst? c = some number := by
  obtain ⟨hblank, hhash, hquote⟩ := plain_of_isDigit h
  simp [ofFirst?, hblank, hhash, hquote, h]

theorem Admits.ofFirst?_head {rule : Rule} {word : List Char} (h : rule.Admits word) :
    word.head?.bind ofFirst? = some rule := by
  cases rule with
  | blank =>
    cases h with
    | @blank c h =>
      have hblank : isBlank c = true := by simpa [isBlank, or_assoc] using h
      simp [ofFirst?, hblank]
  | comment => cases h; rfl
  | operator =>
    obtain ⟨op, rfl⟩ := admits_operator_iff.1 h
    cases op <;> decide
  | number =>
    have hwhole : ∀ {whole rest : List Char}, IsWhole whole →
        (whole ++ rest).head?.bind ofFirst? = some number := by
      intro whole rest hwhole
      obtain ⟨d, ds, rfl⟩ := List.exists_cons_of_ne_nil hwhole.ne_nil
      exact ofFirst?_of_isDigit (hwhole.isDigit d (by simp))
    cases h with
    | integer h => simpa using @hwhole _ [] h
    | decimal h _ => exact hwhole h
  | name =>
    cases h with
    | name hc _ =>
      have hstart := isNameStart_iff.2 hc
      obtain ⟨hblank, hhash, hquote⟩ := plain_of_isNameStart hstart
      simp [ofFirst?, hblank, hhash, hquote, isDigit_eq_false_of_isNameStart hstart, hstart]
  | string => cases h <;> rfl

theorem Admits.ne_nil {rule : Rule} {word : List Char} (h : rule.Admits word) : word ≠ [] := by
  rintro rfl
  simpa using h.ofFirst?_head

end Rule

namespace Lexeme

def rule? : Lexeme → Option Rule
  | blank _ => some .blank
  | comment _ => some .comment
  | operator _ => some .operator
  | integer _ | decimal _ _ | openDecimal _ => some .number
  | word _ => some .name
  | quoted _ | cutQuoted _ | openQuoted _ => some .string
  | stray _ => none

theorem admits_text {lexeme : Lexeme} {rule : Rule} (h : lexeme.WellFormed)
    (hrule : lexeme.rule? = some rule) : rule.Admits lexeme.text := by
  cases lexeme <;> cases hrule
  case blank c =>
    refine .blank ?_
    simpa [WellFormed, isBlank, or_assoc] using h
  case comment body => exact .comment fun hmem => h _ hmem rfl
  case operator op => exact Rule.admits_operator_iff.2 ⟨op, rfl⟩
  case integer digits => exact .integer h
  case decimal whole fraction => exact .decimal h.1 h.2.2
  case openDecimal whole => exact .decimal h (List.forall_mem_nil _)
  case word letters => exact Rule.admits_name_iff.2 h
  case quoted content => exact .closedString (isContent_of_isStringPart h)
  case cutQuoted content => exact .openString (isContent_of_isStringPart h)
  case openQuoted content => exact .openString (isContent_of_isStringPart h)

theorem ofFirst?_head_text {lexeme : Lexeme} (h : lexeme.WellFormed) :
    lexeme.text.head?.bind Rule.ofFirst? = lexeme.rule? := by
  cases hrule : lexeme.rule? with
  | some rule => exact (admits_text h hrule).ofFirst?_head
  | none =>
    cases lexeme with
    | stray c =>
      obtain ⟨hblank, hhash, hquote, hdigit, hname, hop⟩ := h
      simp [text, Rule.ofFirst?, hblank, hhash, hquote, hdigit, hname, hop]
    | _ => cases hrule

theorem run_unique {p : Char → Bool} {a b s t : List Char} {x y : Char}
    (ha : ∀ c ∈ a, p c = true) (hb : ∀ c ∈ b, p c = true) (hx : p x = false)
    (hy : p y = false) (h : a ++ x :: s = b ++ y :: t) : a = b ∧ x = y ∧ s = t := by
  have hx' : ∀ c ∈ (x :: s).head?, p c = false := by simpa using hx
  have hy' : ∀ c ∈ (y :: t).head?, p c = false := by simpa using hy
  have hab : a = b := by rw [← takeWhile_run ha hx', h, takeWhile_run hb hy']
  subst hab
  exact ⟨rfl, List.cons.inj (List.append_cancel_left h)⟩

theorem IsWhole.eq_zero {rest : List Char} (h : IsWhole ('0' :: rest)) : rest = [] := by
  cases h with
  | zero => rfl
  | digits _ hzero _ => exact absurd rfl hzero

theorem not_admits_integer {digits more : List Char} {next : Char} (h : IsWhole digits)
    (hdot : next ≠ '.') (hdigit : digits ≠ ['0'] → next.isDigit = false) :
    ¬ Rule.number.Admits (digits ++ next :: more) := by
  intro hadmits
  generalize hword : digits ++ next :: more = word at hadmits
  by_cases hzero : digits = ['0']
  · subst hzero
    cases hadmits with
    | integer hwhole =>
      rw [← hword] at hwhole
      exact absurd hwhole.eq_zero (by simp)
    | @decimal whole fraction hwhole _ =>
      obtain ⟨d, ds, rfl⟩ := List.exists_cons_of_ne_nil hwhole.ne_nil
      obtain ⟨rfl, htail⟩ := List.cons.inj hword
      rw [hwhole.eq_zero] at htail
      exact hdot (List.cons.inj htail).1
  · have hnext := hdigit hzero
    cases hadmits with
    | integer hwhole =>
      have := hwhole.isDigit next (by simp [← hword])
      simp [hnext] at this
    | decimal hwhole _ =>
      exact hdot (run_unique h.isDigit hwhole.isDigit hnext rfl hword).2.1

theorem not_admits_decimal {whole fraction more : List Char} {next : Char} (h : IsWhole whole)
    (hnext : next.isDigit = false) :
    ¬ Rule.number.Admits (whole ++ '.' :: fraction ++ next :: more) := by
  intro hadmits
  rw [List.append_assoc, List.cons_append] at hadmits
  generalize hword : whole ++ '.' :: (fraction ++ next :: more) = word at hadmits
  cases hadmits with
  | integer hwhole =>
    have := hwhole.isDigit '.' (by simp [← hword])
    simp at this
  | decimal hwhole hfraction =>
    have hmore := (run_unique h.isDigit hwhole.isDigit rfl rfl hword).2.2
    have := hfraction next (by simp [← hmore])
    simp [hnext] at this

/-- No rule admits a word that goes on after a lexeme that stops. -/
theorem not_admits_of_stopsBefore {lexeme : Lexeme} {next : Char} {more : List Char}
    (h : lexeme.WellFormed) (hstop : lexeme.StopsBefore (some next)) (rule : Rule) :
    ¬ rule.Admits (lexeme.text ++ next :: more) := by
  intro hadmits
  have hrule := hadmits.ofFirst?_head
  rw [List.head?_append_of_ne_nil _ h.text_ne_nil, ofFirst?_head_text h] at hrule
  generalize hword : lexeme.text ++ next :: more = word at hadmits
  cases lexeme <;> cases hrule
  case blank c =>
    cases hadmits
    simp [text] at hword
  case comment body =>
    cases hadmits with
    | comment hbody =>
      obtain ⟨-, rfl⟩ := List.cons.inj hword
      exact hbody (by simp [hstop next rfl])
  case operator op =>
    obtain ⟨op', rfl⟩ := Rule.admits_operator_iff.1 hadmits
    have hnone := hstop next rfl
    cases more with
    | nil => simp [show op.chars ++ [next] = op'.chars from hword] at hnone
    | cons =>
      have hlength := congrArg List.length hword
      have hpos := List.length_pos_iff.2 op.chars_ne_nil
      simp only [text, List.length_append, List.length_cons] at hlength
      rcases op'.length_chars with h | h <;> omega
  case integer digits =>
    obtain ⟨hdot, hdigit⟩ := hstop next rfl
    exact not_admits_integer h hdot hdigit (hword ▸ hadmits)
  case decimal whole fraction =>
    exact not_admits_decimal h.1 (hstop next rfl) (hword ▸ hadmits)
  case openDecimal whole =>
    exact not_admits_decimal h (hstop next rfl) (hword ▸ hadmits)
  case word letters =>
    obtain ⟨c, rest, rfl, -, -⟩ := h
    cases hadmits with
    | name _ hletters =>
      obtain ⟨-, rfl⟩ := List.cons.inj hword
      have := isNamePart_iff.2 (hletters next (by simp))
      simp [hstop next rfl] at this
  case quoted content =>
    simp only [text, List.cons_append, List.append_assoc, List.nil_append] at hword
    cases hadmits with
    | openString hcontent =>
      have := hcontent '"' (by simp [← (List.cons.inj hword).2])
      exact absurd this (by decide)
    | closedString hcontent =>
      have hparts := isStringPart_of_isContent hcontent
      have := (run_unique h hparts rfl rfl (List.cons.inj hword).2).2.2
      simp at this
  case cutQuoted content =>
    obtain ⟨_, ⟨⟩, hpart, hquote⟩ := hstop
    cases hadmits with
    | openString hcontent =>
      have := isStringPart_iff.2 (hcontent next (by simp [← (List.cons.inj hword).2]))
      simp [hpart] at this
    | closedString hcontent =>
      have hparts := isStringPart_of_isContent hcontent
      exact hquote (run_unique h hparts hpart rfl (List.cons.inj hword).2).2.1
  case openQuoted content => cases hstop

theorem longest_of_stopsBefore {lexeme : Lexeme} {rule : Rule} {rest : List Char}
    (h : lexeme.WellFormed) (hrule : lexeme.rule? = some rule)
    (hstop : lexeme.StopsBefore rest.head?) : rule.Longest lexeme.text rest := by
  refine ⟨admits_text h hrule, fun rule' word hadmits hprefix => ?_⟩
  by_contra hlonger
  have htext : lexeme.text <+: word :=
    List.prefix_of_prefix_length_le (List.prefix_append _ _) hprefix (by omega)
  obtain ⟨tail, rfl⟩ := htext
  rw [List.prefix_append_right_inj] at hprefix
  cases tail with
  | nil => simp at hlonger
  | cons next more =>
    obtain ⟨rest, rfl⟩ := hprefix
    exact not_admits_of_stopsBefore h hstop rule' hadmits

theorem forall_mem_concat {p : Char → Prop} {run : List Char} {c : Char}
    (h : ∀ d ∈ run, p d) (hc : p c) : ∀ d ∈ run ++ [c], p d :=
  List.forall_mem_append.2 ⟨h, List.forall_mem_singleton.2 hc⟩

/-- Whether an open string is cut or unterminated is not a matter of its text. -/
theorem stopsBefore_of_longest {lexeme : Lexeme} {rule : Rule} {rest : List Char}
    (h : lexeme.WellFormed) (hrule : lexeme.rule? = some rule)
    (hcut : ∀ content, lexeme = cutQuoted content → rest ≠ [])
    (hopen : ∀ content, lexeme = openQuoted content → rest = [])
    (hlongest : rule.Longest lexeme.text rest) : lexeme.StopsBefore rest.head? := by
  have hnext : ∀ c ∈ rest.head?, ∀ rule' : Rule, ¬ rule'.Admits (lexeme.text ++ [c]) := by
    intro c hc rule' hadmits
    obtain ⟨more, rfl⟩ := List.head?_eq_some_iff.1 hc
    have := hlongest.longest rule' _ hadmits (by simp)
    rw [List.length_append, List.length_singleton] at this
    omega
  clear hlongest
  cases lexeme <;> cases hrule
  case blank | quoted => trivial
  case comment body =>
    intro c hc
    by_contra hne
    have hbody := forall_mem_concat h hne
    exact hnext c hc .comment (.comment fun hmem => hbody _ hmem rfl)
  case operator op =>
    intro c hc
    rw [Option.eq_none_iff_forall_ne_some]
    intro op' hop
    exact hnext c hc .operator
      (Rule.admits_operator_iff.2 ⟨op', Operator.chars_of_ofChars? hop⟩)
  case integer digits =>
    intro c hc
    constructor
    · rintro rfl
      exact hnext '.' hc .number (.decimal h (List.forall_mem_nil _))
    · intro hzero
      rw [Bool.eq_false_iff]
      intro hdigit
      cases h with
      | zero => exact hzero rfl
      | digits hd hd0 hds =>
        exact hnext c hc .number (.integer (.digits hd hd0 (forall_mem_concat hds hdigit)))
  case decimal whole fraction =>
    intro c hc
    rw [Bool.eq_false_iff]
    intro hdigit
    refine hnext c hc .number ?_
    rw [text, List.append_assoc]
    exact .decimal h.1 (forall_mem_concat h.2.2 hdigit)
  case openDecimal whole =>
    intro c hc
    rw [Bool.eq_false_iff]
    intro hdigit
    refine hnext c hc .number ?_
    rw [text, List.append_assoc]
    exact .decimal h (forall_mem_concat (List.forall_mem_nil _) hdigit)
  case word letters =>
    intro c hc
    rw [Bool.eq_false_iff]
    intro hpart
    obtain ⟨d, ds, rfl, hd, hds⟩ := h
    exact hnext c hc .name
      (Rule.admits_name_iff.2 ⟨d, ds ++ [c], rfl, hd, forall_mem_concat hds hpart⟩)
  case cutQuoted content =>
    obtain ⟨c, rest, rfl⟩ := List.exists_cons_of_ne_nil (hcut content rfl)
    have hcontent := isContent_of_isStringPart h
    refine ⟨c, rfl, ?_, ?_⟩
    · rw [Bool.eq_false_iff]
      intro hpart
      have hlonger := forall_mem_concat hcontent (isStringPart_iff.1 hpart)
      exact hnext c rfl .string (.openString hlonger)
    · rintro rfl
      exact hnext '"' rfl .string (.closedString hcontent)
  case openQuoted content =>
    rw [hopen content rfl]
    rfl

end Lexeme

end ImagingLexer
