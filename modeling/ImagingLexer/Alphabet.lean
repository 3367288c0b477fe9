/-! # Alphabet

The character classes of the language, all of them within ASCII, and the length of a
text in UTF-8 bytes, which is the unit of every offset and column.
-/

namespace ImagingLexer

def isBlank (c : Char) : Bool :=
  c = ' ' || c = '\t' || c = '\r' || c = '\n'

def isNameStart (c : Char) : Bool :=
  c.isAlpha || c = '_' || c = '$'

def isNamePart (c : Char) : Bool :=
  isNameStart c || c.isDigit

/-- What may stand between the quotes of a string: a name part or a space. -/
def isStringPart (c : Char) : Bool :=
  isNamePart c || c = ' '

theorem isBlank_iff {c : Char} :
    isBlank c = true ↔ c = ' ' ∨ c = '\t' ∨ c = '\r' ∨ c = '\n' := by
  simp [isBlank, or_assoc]

theorem isNamePart_of_isNameStart {c : Char} (h : isNameStart c = true) :
    isNamePart c = true := by
  simp [isNamePart, h]

theorem isStringPart_of_isNamePart {c : Char} (h : isNamePart c = true) :
    isStringPart c = true := by
  simp [isStringPart, h]

/-- The number of UTF-8 bytes of a text. -/
def byteLength : List Char → Nat
  | [] => 0
  | c :: text => c.utf8Size + byteLength text

@[simp] theorem byteLength_nil : byteLength [] = 0 := rfl

@[simp] theorem byteLength_cons (c : Char) (text : List Char) :
    byteLength (c :: text) = c.utf8Size + byteLength text := rfl

@[simp] theorem byteLength_append (a b : List Char) :
    byteLength (a ++ b) = byteLength a + byteLength b := by
  induction a with
  | nil => simp
  | cons c a ih => simp [ih, Nat.add_assoc]

theorem length_le_byteLength (text : List Char) : text.length ≤ byteLength text := by
  induction text with
  | nil => simp
  | cons c text ih =>
    have := c.utf8Size_pos
    simp
    omega

theorem byteLength_of_isDigit {digits : List Char} (h : ∀ c ∈ digits, c.isDigit = true) :
    byteLength digits = digits.length := by
  induction digits with
  | nil => rfl
  | cons c digits ih =>
    obtain ⟨hc, hdigits⟩ := List.forall_mem_cons.1 h
    have hsize : c.utf8Size = 1 := by
      rw [Char.utf8Size_eq_one_iff]
      simp only [Char.isDigit, Bool.and_eq_true, decide_eq_true_eq] at hc
      exact UInt32.le_trans hc.2 (by decide)
    rw [byteLength_cons, hsize, ih hdigits, List.length_cons, Nat.add_comm]

theorem byteLength_eq_zero_iff {text : List Char} : byteLength text = 0 ↔ text = [] := by
  constructor
  · intro h
    have := length_le_byteLength text
    exact List.eq_nil_of_length_eq_zero (by omega)
  · rintro rfl
    rfl

end ImagingLexer
