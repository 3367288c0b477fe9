import ImagingLexer.Alphabet
import Mathlib.Data.List.Basic

/-! # Bytes of a text

Offsets count bytes of the UTF-8 encoding. A character of ASCII is one byte, and no byte of
another character looks like it, so that lines, blanks and comments can be told apart without
decoding anything.
-/

namespace ImagingLexer

/-- The UTF-8 encoding of a text. -/
def bytes (text : List Char) : List UInt8 := text.flatMap String.utf8EncodeChar

def utf8 (source : String) : List UInt8 := source.toByteArray.data.toList

section Bytes

@[simp] theorem bytes_nil : bytes [] = [] := rfl

@[simp] theorem bytes_cons (c : Char) (text : List Char) :
    bytes (c :: text) = String.utf8EncodeChar c ++ bytes text := by
  simp [bytes]

@[simp] theorem bytes_append (a b : List Char) : bytes (a ++ b) = bytes a ++ bytes b := by
  simp [bytes]

@[simp] theorem length_bytes (text : List Char) : (bytes text).length = byteLength text := by
  induction text with
  | nil => rfl
  | cons c text ih => simp [ih]

theorem lt_byteLength_of_getElem?_bytes {text : List Char} {i : Nat} {byte : UInt8}
    (h : (bytes text)[i]? = some byte) : i < byteLength text := by
  rw [← length_bytes]
  exact (List.getElem?_eq_some_iff.1 h).1

theorem utf8_ofList (text : List Char) : utf8 (String.ofList text) = bytes text := by
  simp [utf8, bytes, List.utf8Encode]

theorem utf8_eq_bytes (source : String) : utf8 source = bytes source.toList := by
  rw [← utf8_ofList, String.ofList_toList]

theorem utf8_injective : Function.Injective utf8 := by
  intro a b h
  rw [← String.toByteArray_inj]
  exact ByteArray.ext (Array.toList_inj.1 h)

theorem length_utf8 (source : String) : (utf8 source).length = byteLength source.toList := by
  rw [utf8_eq_bytes, length_bytes]

end Bytes

section Ascii

variable {c : Char} {byte : UInt8}

theorem le_or_mark (b : UInt8) {mark : UInt8} (h : 0x80 ≤ mark) : 0x80 ≤ b ||| mark := by
  refine UInt8.le_trans h (UInt8.le_iff_toNat_le.2 ?_)
  rw [UInt8.toNat_or]
  exact Nat.right_le_or

theorem utf8EncodeChar_of_toNat_eq (h : byte < 0x80) (hc : c.toNat = byte.toNat) :
    String.utf8EncodeChar c = [byte] := by
  have hbyte : byte.toNat < 128 := UInt8.lt_iff_toNat_lt.1 h
  have hsize : c.utf8Size = 1 := by
    rw [Char.utf8Size_eq_one_iff, UInt32.le_iff_toNat_le]
    show c.toNat ≤ 127
    omega
  rw [String.utf8EncodeChar_eq_singleton hsize, List.singleton_inj]
  apply UInt8.toNat.inj
  rw [UInt32.toNat_toUInt8]
  show c.toNat % 256 = byte.toNat
  omega

/-- A byte of ASCII is a character by itself. -/
theorem mem_utf8EncodeChar_iff (h : byte < 0x80) :
    byte ∈ String.utf8EncodeChar c ↔ c.toNat = byte.toNat := by
  constructor
  · intro hmem
    -- All bytes of a longer character are marked.
    have hmark : ∀ {b mark : UInt8}, 0x80 ≤ mark → byte ≠ b ||| mark := by
      rintro b mark hmark rfl
      exact UInt8.not_lt.2 (le_or_mark b hmark) h
    rcases Char.utf8Size_eq c with hsize | hsize | hsize | hsize
    · rw [String.utf8EncodeChar_eq_singleton hsize, List.mem_singleton] at hmem
      have hsmall := UInt32.le_iff_toNat_le.1 (Char.utf8Size_eq_one_iff.1 hsize)
      have hbyte := congrArg UInt8.toNat hmem
      rw [UInt32.toNat_toUInt8] at hbyte
      change c.toNat ≤ 127 at hsmall
      change byte.toNat = c.toNat % 256 at hbyte
      omega
    · rw [String.utf8EncodeChar_eq_cons_cons hsize] at hmem
      simp only [List.mem_cons, List.not_mem_nil, or_false] at hmem
      rcases hmem with hmem | hmem <;> exact absurd hmem (hmark (by decide))
    · rw [String.utf8EncodeChar_eq_cons_cons_cons hsize] at hmem
      simp only [List.mem_cons, List.not_mem_nil, or_false] at hmem
      rcases hmem with hmem | hmem | hmem <;> exact absurd hmem (hmark (by decide))
    · rw [String.utf8EncodeChar_eq_cons_cons_cons_cons hsize] at hmem
      simp only [List.mem_cons, List.not_mem_nil, or_false] at hmem
      rcases hmem with hmem | hmem | hmem | hmem <;> exact absurd hmem (hmark (by decide))
  · intro hc
    rw [utf8EncodeChar_of_toNat_eq h hc]
    exact List.mem_singleton_self byte

theorem head?_utf8EncodeChar_eq_some_iff (h : byte < 0x80) :
    (String.utf8EncodeChar c).head? = some byte ↔ c.toNat = byte.toNat := by
  constructor
  · exact fun hhead => (mem_utf8EncodeChar_iff h).1 (List.mem_of_head? hhead)
  · intro hc
    rw [utf8EncodeChar_of_toNat_eq h hc]
    rfl

end Ascii

section Boundary

theorem getElem?_bytes_append (before rest : List Char) (c : Char) :
    (bytes (before ++ c :: rest))[byteLength before]? = (String.utf8EncodeChar c).head? := by
  have hpos : 0 < (String.utf8EncodeChar c).length := by
    rw [String.length_utf8EncodeChar]
    exact c.utf8Size_pos
  rw [bytes_append, List.getElem?_append_right (by simp), length_bytes, Nat.sub_self, bytes_cons,
    List.getElem?_append_left hpos, List.head?_eq_getElem?]

theorem isValid_of_append {source : String} {a b : List Char} (h : source.toList = a ++ b) :
    (String.Pos.Raw.mk (byteLength a)).IsValid source := by
  have hlength := length_utf8 (String.ofList a)
  rw [String.toList_ofList] at hlength
  rw [← hlength, String.Pos.Raw.isValid_iff_exists_append]
  refine ⟨String.ofList a, String.ofList b, ?_, rfl⟩
  rw [← String.toList_inj, h]
  simp

end Boundary

section LineFeed

theorem lineFeed_mem_utf8EncodeChar_iff {c : Char} :
    10 ∈ String.utf8EncodeChar c ↔ c = '\n' := by
  rw [mem_utf8EncodeChar_iff (by decide)]
  exact @Char.toNat_inj c '\n'

theorem lineFeed_mem_bytes_iff {text : List Char} : 10 ∈ bytes text ↔ '\n' ∈ text := by
  simp [bytes, lineFeed_mem_utf8EncodeChar_iff]

theorem count_bytes (text : List Char) : (bytes text).count 10 = text.count '\n' := by
  induction text with
  | nil => rfl
  | cons c text ih =>
    rw [bytes_cons, List.count_append, ih]
    by_cases h : c = '\n'
    · subst h
      rw [List.count_cons_self, Nat.add_comm]
      rfl
    · rw [List.count_eq_zero.2 (mt lineFeed_mem_utf8EncodeChar_iff.1 h), Nat.zero_add,
        List.count_cons_of_ne h]

end LineFeed

end ImagingLexer
