import Recurrence.Proofs.Expression.Position

/-!
# The bytes of a text

Positions count bytes of UTF-8 text. Blanks are ASCII characters, and every byte of a longer
character lies above them, so that bytes tell blanks as well as characters do
(`isBlankByte_of_mem`).
-/

namespace Recurrence.Expression

/-- The bytes of some text. -/
def utf8 (text : List Char) : List UInt8 :=
  text.flatMap String.utf8EncodeChar

/-- Whether a byte is a space, tab, line feed, form feed or carriage return. -/
def isBlankByte (b : UInt8) : Bool :=
  b = 0x20 || b = 0x09 || b = 0x0a || b = 0x0c || b = 0x0d

section Bytes

variable {c : Char} {b : UInt8}

theorem length_utf8 (text : List Char) : (utf8 text).length = byteLength text := by
  induction text with
  | nil => rfl
  | cons c rest ih =>
    rw [utf8, List.flatMap_cons, List.length_append, String.length_utf8EncodeChar, byteLength]
    exact congrArg (c.utf8Size + ·) ih

theorem utf8_append (front back : List Char) : utf8 (front ++ back) = utf8 front ++ utf8 back :=
  List.flatMap_append

theorem toUTF8_eq (input : String) : input.toUTF8 = (utf8 input.toList).toByteArray := by
  rw [String.toUTF8_eq_toByteArray, ← String.ofList_toList (s := input), String.toByteArray_ofList,
    String.ofList_toList]
  rfl

/-- The bytes of a character outside ASCII lie outside ASCII. -/
theorem le_of_mem_utf8EncodeChar (h : b ∈ String.utf8EncodeChar c) (long : 127 < c.toNat) :
    128 ≤ b.toNat := by
  have value : c.val.toNat = c.toNat := rfl
  simp only [String.utf8EncodeChar, value, if_neg (Nat.not_le.2 long)] at h
  split at h
  · simp only [List.mem_cons, List.not_mem_nil, or_false] at h
    rcases h with rfl | rfl <;> simp only [UInt8.toNat_ofNat'] <;> omega
  · split at h
    · simp only [List.mem_cons, List.not_mem_nil, or_false] at h
      rcases h with rfl | rfl | rfl <;> simp only [UInt8.toNat_ofNat'] <;> omega
    · simp only [List.mem_cons, List.not_mem_nil, or_false] at h
      rcases h with rfl | rfl | rfl | rfl <;> simp only [UInt8.toNat_ofNat'] <;> omega

theorem isBlankByte_eq_decide (b : UInt8) :
    isBlankByte b = decide (b.toNat ∈ [32, 9, 10, 12, 13]) := by
  simp [isBlankByte, ← UInt8.toNat_inj, Bool.or_assoc]

theorem isBlank_eq_decide (c : Char) : isBlank c = decide (c.toNat ∈ [32, 9, 10, 12, 13]) := by
  simp [isBlank, ← Char.toNat_inj, Bool.or_assoc]

/-- Every byte of a character tells whether the character is a blank. -/
theorem isBlankByte_of_mem (h : b ∈ String.utf8EncodeChar c) : isBlankByte b = isBlank c := by
  rw [isBlankByte_eq_decide, isBlank_eq_decide, decide_eq_decide]
  by_cases long : 127 < c.toNat
  · have high := le_of_mem_utf8EncodeChar h long
    simp only [List.mem_cons, List.not_mem_nil, or_false]
    omega
  · have value : c.val.toNat = c.toNat := rfl
    simp only [String.utf8EncodeChar, value, if_pos (Nat.not_lt.1 long), List.mem_singleton] at h
    have same : b.toNat = c.toNat := by
      rw [h, UInt8.toNat_ofNat']
      omega
    rw [same]

end Bytes

end Recurrence.Expression
