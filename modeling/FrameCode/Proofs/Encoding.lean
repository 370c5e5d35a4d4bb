import FrameCode.Text
import Mathlib.Data.List.Basic

/-!
# The encoding of texts

A text is encoded character by character. The encoding of a character is one byte below 128, its
code, or a few bytes from 128 on. So a byte below 128 in the encoding of a text tells that a
character with this code is in the text (`exists_mem_of_mem_encoded`), and one that comes last tells
that the last character is the one with this code (`exists_getLast?_of_encoded`).
-/

namespace FrameCode.Text

variable {c : Char} {s t : String} {b : UInt8}

/-- The bytes that a text is encoded in. -/
def encoded (text : String) : List UInt8 :=
  text.toUTF8.data.toList

theorem encoded_inj (h : encoded s = encoded t) : s = t := by
  rw [← String.toByteArray_inj, ByteArray.ext_iff, ← Array.toList_inj]
  exact h

theorem encoded_eq_flatMap (s : String) : encoded s = s.toList.flatMap String.utf8EncodeChar := by
  have hbytes : s.toUTF8 = s.toList.utf8Encode := (String.utf8Encode_toList ..).symm
  unfold encoded
  rw [hbytes, List.utf8Encode, List.data_toByteArray]

/-- A byte below 128 in the encoding of a character is the code of the character. -/
theorem toNat_of_mem_utf8EncodeChar (h : b ∈ String.utf8EncodeChar c) (hb : b.toNat < 128) :
    c.toNat = b.toNat := by
  unfold String.utf8EncodeChar at h
  dsimp only at h
  by_cases hone : c.val.toNat ≤ 0x7f
  · have hlt : c.val.toNat < UInt8.size := Nat.lt_of_le_of_lt hone (by decide)
    rw [if_pos hone, List.mem_singleton] at h
    rw [h, UInt8.toNat_ofNat_of_lt' hlt]
    rfl
  · -- Each byte of a longer encoding is 128 or more.
    rw [if_neg hone] at h
    exfalso
    split at h
    · simp only [List.mem_cons, List.not_mem_nil, or_false] at h
      rcases h with rfl | rfl <;> simp at hb <;> omega
    · split at h
      · simp only [List.mem_cons, List.not_mem_nil, or_false] at h
        rcases h with rfl | rfl | rfl <;> simp at hb <;> omega
      · simp only [List.mem_cons, List.not_mem_nil, or_false] at h
        rcases h with rfl | rfl | rfl | rfl <;> simp at hb <;> omega

/-- A byte below 128 in the encoding of a text is a character of the text. -/
theorem exists_mem_of_mem_encoded (h : b ∈ encoded s) (hb : b.toNat < 128) :
    ∃ c ∈ s.toList, c.toNat = b.toNat := by
  rw [encoded_eq_flatMap, List.mem_flatMap] at h
  obtain ⟨c, hc, hbc⟩ := h
  exact ⟨c, hc, toNat_of_mem_utf8EncodeChar hbc hb⟩

/-- A byte below 128 at the end of the encoding of a text is the last character of the text. -/
theorem exists_getLast?_of_encoded (h : (encoded s).getLast? = some b) (hb : b.toNat < 128) :
    ∃ c, s.toList.getLast? = some c ∧ c.toNat = b.toNat := by
  rw [encoded_eq_flatMap] at h
  rcases List.eq_nil_or_concat s.toList with hnil | ⟨cs, c, hlast⟩
  · rw [hnil] at h
    cases h
  · rw [hlast] at h ⊢
    simp only [List.concat_eq_append, List.flatMap_append, List.flatMap_singleton] at h
    rw [List.getLast?_append_of_ne_nil _ String.utf8EncodeChar_ne_nil] at h
    refine ⟨c, by simp, ?_⟩
    exact toNat_of_mem_utf8EncodeChar (List.mem_of_getLast? h) hb

end FrameCode.Text
