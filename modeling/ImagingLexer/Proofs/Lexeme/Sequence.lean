import ImagingLexer.Proofs.Lexeme.Boundary

/-! # Sequences of lexemes

The lexemes of a text are the only well-formed lexemes that spell it and of which each
stops before the next. Whatever a scan does to a text can therefore be read off any such
sequence, however it was found.
-/

namespace ImagingLexer

namespace Lexeme

def spell (lexemes : List Lexeme) : List Char := lexemes.flatMap text

@[simp] theorem spell_nil : spell [] = [] := rfl

@[simp] theorem spell_cons (lexeme : Lexeme) (lexemes : List Lexeme) :
    spell (lexeme :: lexemes) = lexeme.text ++ spell lexemes := by
  simp [spell]

@[simp] theorem spell_append (a b : List Lexeme) : spell (a ++ b) = spell a ++ spell b := by
  simp [spell]

/-- Each of the lexemes is well formed and stops before the next, the last before `rest`. -/
def Separated : List Lexeme → List Char → Prop
  | [], _ => True
  | lexeme :: lexemes, rest =>
    lexeme.WellFormed ∧ lexeme.StopsBefore (spell lexemes ++ rest).head? ∧
      Separated lexemes rest

@[simp] theorem separated_nil (rest : List Char) : Separated [] rest := trivial

@[simp] theorem separated_cons {lexeme : Lexeme} {lexemes : List Lexeme} {rest : List Char} :
    Separated (lexeme :: lexemes) rest ↔
      lexeme.WellFormed ∧ lexeme.StopsBefore (spell lexemes ++ rest).head? ∧
        Separated lexemes rest := Iff.rfl

theorem separated_append {a b : List Lexeme} {rest : List Char} :
    Separated (a ++ b) rest ↔ Separated a (spell b ++ rest) ∧ Separated b rest := by
  induction a with
  | nil => simp
  | cons lexeme a ih => simp [ih, and_assoc]

theorem Separated.congr {lexemes : List Lexeme} {rest rest' : List Char}
    (h : Separated lexemes rest) (hhead : rest.head? = rest'.head?) :
    Separated lexemes rest' := by
  induction lexemes with
  | nil => trivial
  | cons lexeme lexemes ih =>
    obtain ⟨hparts, hstop, hlexemes⟩ := h
    refine ⟨hparts, ?_, ih hlexemes⟩
    rwa [List.head?_append, hhead, ← List.head?_append] at hstop

theorem exists_split_of_spell_eq {lexemes : List Lexeme} {before rest : List Char} {c : Char}
    (h : spell lexemes = before ++ c :: rest) :
    ∃ a lexeme b u v, lexemes = a ++ lexeme :: b ∧ lexeme.text = u ++ c :: v ∧
      before = spell a ++ u ∧ rest = v ++ spell b := by
  induction lexemes generalizing before with
  | nil => simp at h
  | cons lexeme lexemes ih =>
    have hmore : ∀ before', before = lexeme.text ++ before' →
        spell lexemes = before' ++ c :: rest → ∃ a found b u v,
          lexeme :: lexemes = a ++ found :: b ∧ found.text = u ++ c :: v ∧
            before = spell a ++ u ∧ rest = v ++ spell b := by
      rintro before' rfl hspell
      obtain ⟨a, found, b, u, v, rfl, htext, rfl, rfl⟩ := ih hspell
      exact ⟨lexeme :: a, found, b, u, v, rfl, htext, by simp, rfl⟩
    rw [spell_cons] at h
    rcases List.append_eq_append_iff.1 h with ⟨before', hbefore, hspell⟩ | ⟨v, htext, hrest⟩
    · exact hmore before' hbefore hspell
    · cases v with
      | nil => exact hmore [] (by simpa using htext.symm) hrest.symm
      | cons d v =>
        obtain ⟨rfl, rfl⟩ := List.cons.inj hrest
        exact ⟨[], lexeme, lexemes, before, v, rfl, htext, rfl, rfl⟩

/-- What a comment says does not matter to the lexemes around it. -/
theorem Separated.comment {a b : List Lexeme} {body body' rest : List Char}
    (h : Separated (a ++ comment body :: b) rest) (hbody : '\n' ∉ body') :
    Separated (a ++ .comment body' :: b) rest := by
  obtain ⟨ha, -, hstop, hb⟩ := separated_append.1 h
  refine separated_append.2 ⟨ha.congr rfl, ?_, hstop, hb⟩
  rintro c hc rfl
  exact hbody hc

theorem WellFormed.text_ne_nil {lexeme : Lexeme} (h : lexeme.WellFormed) :
    lexeme.text ≠ [] := by
  cases lexeme with
  | operator op => exact op.chars_ne_nil
  | integer digits => exact IsWhole.ne_nil h
  | word letters =>
    obtain ⟨c, rest, rfl, -⟩ := h
    simp [text]
  | _ => simp [text]

theorem eq_nil_of_spell_eq_nil {lexemes : List Lexeme}
    (hparts : ∀ lexeme ∈ lexemes, lexeme.WellFormed) (h : spell lexemes = []) : lexemes = [] := by
  cases lexemes with
  | nil => rfl
  | cons lexeme lexemes =>
    have htext := (List.append_eq_nil_iff.1 (spell_cons lexeme lexemes ▸ h)).1
    exact absurd htext (hparts lexeme List.mem_cons_self).text_ne_nil

end Lexeme

open Lexeme

def lexemes : List Char → List Lexeme
  | [] => []
  | c :: rest => (first c rest).1 :: lexemes (first c rest).2
termination_by text => text.length
decreasing_by exact length_first_lt c rest

@[simp] theorem lexemes_nil : lexemes [] = [] := by
  rw [lexemes]

theorem lexemes_cons (c : Char) (rest : List Char) :
    lexemes (c :: rest) = (first c rest).1 :: lexemes (first c rest).2 := by
  rw [lexemes]

@[simp] theorem spell_lexemes (text : List Char) : spell (lexemes text) = text := by
  fun_induction lexemes text with
  | case1 => rfl
  | case2 c rest ih => rw [spell_cons, ih, text_append_first]

theorem separated_lexemes (text : List Char) : Separated (lexemes text) [] := by
  fun_induction lexemes text with
  | case1 => trivial
  | case2 c rest ih =>
    obtain ⟨hparts, hstop⟩ := first_spec c rest
    refine ⟨hparts, ?_, ih⟩
    rwa [spell_lexemes, List.append_nil]

/-- Lexemes that stop before what follows them are found again. -/
theorem lexemes_spell_append {a : List Lexeme} {rest : List Char} (h : Separated a rest) :
    lexemes (spell a ++ rest) = a ++ lexemes rest := by
  induction a with
  | nil => rfl
  | cons lexeme a ih =>
    obtain ⟨hparts, hstop, ha⟩ := h
    rw [spell_cons, List.append_assoc]
    cases htext : lexeme.text ++ (spell a ++ rest) with
    | nil => exact absurd (List.append_eq_nil_iff.1 htext).1 hparts.text_ne_nil
    | cons c text =>
      rw [lexemes_cons, first_of_wellFormed hparts hstop htext, ih ha, List.cons_append]

theorem lexemes_text_append {lexeme : Lexeme} {rest : List Char} (hparts : lexeme.WellFormed)
    (hstop : lexeme.StopsBefore rest.head?) :
    lexemes (lexeme.text ++ rest) = lexeme :: lexemes rest := by
  have hseparated : Separated [lexeme] rest := ⟨hparts, by simpa using hstop, trivial⟩
  simpa using lexemes_spell_append hseparated

theorem lexemes_eq_iff {text : List Char} {a : List Lexeme} :
    lexemes text = a ↔ spell a = text ∧ Separated a [] := by
  constructor
  · rintro rfl
    exact ⟨spell_lexemes text, separated_lexemes text⟩
  · rintro ⟨rfl, h⟩
    simpa using lexemes_spell_append h

theorem wellFormed_of_mem_lexemes {text : List Char} {lexeme : Lexeme}
    (h : lexeme ∈ lexemes text) : lexeme.WellFormed := by
  fun_induction lexemes text with
  | case1 => simp at h
  | case2 c rest ih =>
    rcases List.mem_cons.1 h with rfl | h
    · exact (first_spec c rest).1
    · exact ih h

section Split

variable {text : List Char} {a b : List Lexeme} {lexeme : Lexeme}

theorem wellFormed_of_lexemes_eq (h : lexemes text = a ++ lexeme :: b) : lexeme.WellFormed :=
  wellFormed_of_mem_lexemes (h ▸ List.mem_append_right a List.mem_cons_self)

theorem eq_spell_of_lexemes_eq (h : lexemes text = a ++ lexeme :: b) :
    text = spell a ++ lexeme.text ++ spell b := by
  rw [← spell_lexemes text, h, spell_append, spell_cons, List.append_assoc]

theorem stopsBefore_of_lexemes_eq (h : lexemes text = a ++ lexeme :: b) :
    lexeme.StopsBefore (spell b).head? := by
  have hseparated := separated_lexemes text
  rw [h] at hseparated
  simpa using (separated_append.1 hseparated).2.2.1

theorem lexemes_spell_of_lexemes_eq (h : lexemes text = a ++ b) : lexemes (spell b) = b := by
  have hseparated := separated_lexemes text
  rw [h] at hseparated
  exact lexemes_eq_iff.2 ⟨rfl, (separated_append.1 hseparated).2⟩

end Split

end ImagingLexer
