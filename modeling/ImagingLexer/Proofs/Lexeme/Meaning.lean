import ImagingLexer.Lexeme.Meaning

/-! # Kinds and values of lexemes

A lexeme is skipped, stands for a token or is broken. What the kind and the value of a token
can be then is said once, for all lexemes, and everything else about kinds and values is
drawn from it.
-/

namespace ImagingLexer

/-- A float, if the value is one, is zero or a positive number. -/
def Value.IsPlain (value : Value) : Prop :=
  ∀ x, value = .float x → x.isNaN = false ∧ x.isNegative = false

def Kind.isReserved : Kind → Bool
  | typeName | booleanLit | colorConst | colorOp | imageOp | keyword _ => true
  | _ => false

theorem Reserved.isReserved_of_lookup {text : String} {kind : Kind}
    (h : lookup text = some kind) : kind.isReserved = true := by
  unfold lookup at h
  split at h <;> cases h <;> rfl

namespace Meaning

/-- The kind and the value that a token of this meaning has. -/
def sort? : Meaning → Option (Kind × Value)
  | skipped => none
  | token kind value => some (kind, value)
  | broken fault => some (.error, .error fault)

theorem ofInteger_cases (digits : List Char) :
    (∃ value, ofInteger digits = token .intLit (.int value)) ∨
      ofInteger digits = broken .integerOutOfRange := by
  simp only [ofInteger]
  split
  · exact .inl ⟨_, rfl⟩
  · exact .inr rfl

theorem ofDecimal_cases (whole fraction : List Char) :
    (∃ value, value.isFinite = true ∧ value.isNegative = false ∧
      ofDecimal whole fraction = token .floatLit (.float value)) ∨
      ofDecimal whole fraction = broken .floatOutOfRange := by
  simp only [ofDecimal]
  split
  next value h =>
    exact .inl ⟨value, Binary32.isFinite_of_ofRatio? h, Binary32.isNegative_of_ofRatio? h, rfl⟩
  next => exact .inr rfl

theorem ofWord_cases (text : String) :
    ∃ kind value, ofWord text = token kind value ∧ kind ≠ .eof ∧ kind ≠ .error ∧
      (value = .absent ∨ ∃ truth, value = .boolean truth) := by
  simp only [ofWord]
  split
  · exact ⟨_, _, rfl, by simp, by simp, .inr ⟨_, rfl⟩⟩
  next kind _ hlookup =>
    have hreserved := Reserved.isReserved_of_lookup hlookup
    refine ⟨kind, _, rfl, ?_, ?_, .inl rfl⟩ <;> rintro rfl <;> cases hreserved
  · exact ⟨_, _, rfl, by simp, by simp, .inl rfl⟩

end Meaning

namespace Lexeme

variable {lexeme : Lexeme} {kind : Kind} {value : Value} {fault : Fault}

theorem meaning_spec (lexeme : Lexeme) :
    match lexeme.meaning with
    | .skipped => (∃ c, lexeme = blank c) ∨ ∃ body, lexeme = comment body
    | .token kind value => kind ≠ .eof ∧ kind ≠ .error ∧
        (∀ fault, value ≠ .error fault) ∧ value.IsPlain
    | .broken fault =>
      (fault = .unterminatedString → ∃ content, lexeme = openQuoted content) ∧
        (fault = .illegalStringCharacter → ∃ content, lexeme = cutQuoted content) := by
  cases lexeme with
  | blank c => exact .inl ⟨c, rfl⟩
  | comment body => exact .inr ⟨body, rfl⟩
  | operator op => exact ⟨by simp, by simp, by simp, by rintro x ⟨⟩⟩
  | integer digits =>
    rw [meaning]
    rcases Meaning.ofInteger_cases digits with ⟨value, h⟩ | h <;> rw [h]
    · exact ⟨by simp, by simp, by simp, by rintro x ⟨⟩⟩
    · exact ⟨nofun, nofun⟩
  | decimal whole fraction =>
    rw [meaning]
    rcases Meaning.ofDecimal_cases whole fraction with ⟨value, hfinite, hsign, h⟩ | h <;> rw [h]
    · refine ⟨by simp, by simp, by simp, ?_⟩
      rintro x ⟨⟩
      exact ⟨Binary32.isNaN_eq_false_of_isFinite hfinite, hsign⟩
    · exact ⟨nofun, nofun⟩
  | openDecimal whole => exact ⟨nofun, nofun⟩
  | word letters =>
    obtain ⟨kind, value, h, heof, herror, hvalue⟩ :=
      Meaning.ofWord_cases (String.ofList letters)
    rw [meaning, h]
    rcases hvalue with rfl | ⟨truth, rfl⟩ <;> exact ⟨heof, herror, by simp, by rintro x ⟨⟩⟩
  | quoted content => exact ⟨by simp, by simp, by simp, by rintro x ⟨⟩⟩
  | cutQuoted content => exact ⟨nofun, fun _ => ⟨content, rfl⟩⟩
  | openQuoted content => exact ⟨fun _ => ⟨content, rfl⟩, nofun⟩
  | stray c => exact ⟨nofun, nofun⟩

def sort? (lexeme : Lexeme) : Option (Kind × Value) := lexeme.meaning.sort?

def isBroken (lexeme : Lexeme) : Bool :=
  match lexeme.meaning with
  | .broken _ => true
  | _ => false

theorem sort?_eq_none_iff :
    lexeme.sort? = none ↔ (∃ c, lexeme = blank c) ∨ ∃ body, lexeme = comment body := by
  constructor
  · intro h
    have hspec := meaning_spec lexeme
    cases hmeaning : lexeme.meaning with
    | skipped => simpa only [hmeaning] using hspec
    | token kind value => simp [sort?, hmeaning, Meaning.sort?] at h
    | broken fault => simp [sort?, hmeaning, Meaning.sort?] at h
  · rintro (⟨c, rfl⟩ | ⟨body, rfl⟩) <;> rfl

theorem sort?_eq_some_iff :
    lexeme.sort? = some (kind, value) ↔ lexeme.meaning = .token kind value ∨
      ∃ fault, lexeme.meaning = .broken fault ∧ kind = .error ∧ value = .error fault := by
  cases h : lexeme.meaning <;> simp [sort?, Meaning.sort?, h, eq_comm]

theorem isBroken_iff :
    lexeme.isBroken = true ↔ ∃ fault, lexeme.meaning = .broken fault := by
  cases h : lexeme.meaning <;> simp [isBroken, h]

/-- A token that is not broken neither ends a source nor carries a fault. -/
theorem token_of_meaning (h : lexeme.meaning = .token kind value) :
    kind ≠ .eof ∧ kind ≠ .error ∧ (∀ fault, value ≠ .error fault) ∧ value.IsPlain := by
  have hspec := meaning_spec lexeme
  simpa only [h] using hspec

theorem kind_ne_eof (h : lexeme.sort? = some (kind, value)) : kind ≠ .eof := by
  rcases sort?_eq_some_iff.1 h with h | ⟨fault, -, rfl, -⟩
  · exact (token_of_meaning h).1
  · simp

theorem kind_eq_error_iff (h : lexeme.sort? = some (kind, value)) :
    kind = .error ↔ lexeme.isBroken = true := by
  rw [isBroken_iff]
  rcases sort?_eq_some_iff.1 h with hmeaning | ⟨fault, hmeaning, rfl, -⟩
  · simp [hmeaning, (token_of_meaning hmeaning).2.1]
  · simp [hmeaning]

theorem isPlain_of_sort? (h : lexeme.sort? = some (kind, value)) : value.IsPlain := by
  rcases sort?_eq_some_iff.1 h with h | ⟨fault, -, -, rfl⟩
  · exact (token_of_meaning h).2.2.2
  · rintro x ⟨⟩

theorem meaning_eq_broken (h : lexeme.sort? = some (kind, .error fault)) :
    lexeme.meaning = .broken fault := by
  rcases sort?_eq_some_iff.1 h with h | ⟨fault, h, -, hfault⟩
  · exact absurd rfl ((token_of_meaning h).2.2.1 _)
  · rw [h, Value.error.inj hfault]

theorem exists_of_sort?_unterminated
    (h : lexeme.sort? = some (kind, .error .unterminatedString)) :
    ∃ content, lexeme = openQuoted content := by
  have hspec := meaning_spec lexeme
  rw [meaning_eq_broken h] at hspec
  exact hspec.1 rfl

theorem exists_of_sort?_illegalStringCharacter
    (h : lexeme.sort? = some (kind, .error .illegalStringCharacter)) :
    ∃ content, lexeme = cutQuoted content := by
  have hspec := meaning_spec lexeme
  rw [meaning_eq_broken h] at hspec
  exact hspec.2 rfl

end Lexeme

end ImagingLexer
