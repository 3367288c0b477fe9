import ImagingLexer.Lexeme

/-! # The first lexeme of a text

The first character decides which lexeme it is, and the lexeme then extends as far as
it can. Its text and what remains make up the whole, and what remains is shorter.
-/

namespace ImagingLexer

def Operator.first? (text : List Char) : Option (Operator × List Char) :=
  match ofChars? (text.take 2) with
  | some op => some (op, text.drop 2)
  | none => (ofChars? (text.take 1)).map (·, text.drop 1)

theorem Operator.chars_append_of_first? {text rest : List Char} {op : Operator}
    (h : first? text = some (op, rest)) : op.chars ++ rest = text := by
  unfold first? at h
  split at h
  next op' hop =>
    obtain ⟨rfl, rfl⟩ := Prod.mk.inj (Option.some.inj h)
    rw [chars_of_ofChars? hop, List.take_append_drop]
  next =>
    obtain ⟨op', hop, heq⟩ := Option.map_eq_some_iff.1 h
    obtain ⟨rfl, rfl⟩ := Prod.mk.inj heq
    rw [chars_of_ofChars? hop, List.take_append_drop]

namespace Lexeme

/-- A number whose whole part has been read. -/
def firstNumber (whole rest : List Char) : Lexeme × List Char :=
  match rest with
  | '.' :: after =>
    match after.takeWhile Char.isDigit with
    | [] => (openDecimal whole, after)
    | fraction => (decimal whole fraction, after.dropWhile Char.isDigit)
  | _ => (integer whole, rest)

/-- A string whose opening quote has been read. -/
def firstQuoted (rest : List Char) : Lexeme × List Char :=
  let content := rest.takeWhile isStringPart
  match rest.dropWhile isStringPart with
  | [] => (openQuoted content, [])
  | '"' :: after => (quoted content, after)
  | after => (cutQuoted content, after)

/-- The first lexeme of the text `c :: rest`, and what remains after it. A zero is a whole
part by itself. -/
def first (c : Char) (rest : List Char) : Lexeme × List Char :=
  if isBlank c then (blank c, rest)
  else if c = '#' then
    (comment (rest.takeWhile (· ≠ '\n')), rest.dropWhile (· ≠ '\n'))
  else if c = '"' then firstQuoted rest
  else if c = '0' then firstNumber [c] rest
  else if c.isDigit then
    firstNumber (c :: rest.takeWhile Char.isDigit) (rest.dropWhile Char.isDigit)
  else if isNameStart c then
    (word (c :: rest.takeWhile isNamePart), rest.dropWhile isNamePart)
  else
    match Operator.first? (c :: rest) with
    | some (op, after) => (operator op, after)
    | none => (stray c, rest)

theorem text_append_firstNumber (whole rest : List Char) :
    (firstNumber whole rest).1.text ++ (firstNumber whole rest).2 = whole ++ rest := by
  unfold firstNumber
  split
  next after =>
    split
    next => simp [text]
    next => simp [text]
  next => rfl

theorem text_append_firstQuoted (rest : List Char) :
    (firstQuoted rest).1.text ++ (firstQuoted rest).2 = '"' :: rest := by
  have split_rest := List.takeWhile_append_dropWhile (p := isStringPart) (l := rest)
  unfold firstQuoted
  dsimp only
  split
  next h => simpa [text, h] using split_rest
  next after h => simpa [text, h] using split_rest
  next => simp [text]

theorem text_append_first (c : Char) (rest : List Char) :
    (first c rest).1.text ++ (first c rest).2 = c :: rest := by
  unfold first
  split
  · rfl
  split
  next h => simp [text, h]
  split
  next h => rw [text_append_firstQuoted, h]
  split
  · simp [text_append_firstNumber]
  split
  · simp [text_append_firstNumber]
  split
  · simp [text]
  split
  next h => exact Operator.chars_append_of_first? h
  next => rfl

theorem text_firstNumber_ne_nil {whole : List Char} (h : whole ≠ []) (rest : List Char) :
    (firstNumber whole rest).1.text ≠ [] := by
  unfold firstNumber
  split
  · split <;> simp [text]
  · exact h

theorem text_firstQuoted_ne_nil (rest : List Char) : (firstQuoted rest).1.text ≠ [] := by
  unfold firstQuoted
  dsimp only
  split <;> simp [text]

theorem text_first_ne_nil (c : Char) (rest : List Char) : (first c rest).1.text ≠ [] := by
  unfold first
  split
  · simp [text]
  split
  · simp [text]
  split
  · exact text_firstQuoted_ne_nil rest
  split
  · exact text_firstNumber_ne_nil (by simp) _
  split
  · exact text_firstNumber_ne_nil (by simp) _
  split
  · simp [text]
  split
  next op _ _ => exact Operator.chars_ne_nil op
  next => simp [text]

theorem length_first_lt (c : Char) (rest : List Char) :
    (first c rest).2.length < (c :: rest).length := by
  have split_text := congrArg List.length (text_append_first c rest)
  have := List.length_pos_iff.2 (text_first_ne_nil c rest)
  rw [List.length_append] at split_text
  omega

end Lexeme

end ImagingLexer
