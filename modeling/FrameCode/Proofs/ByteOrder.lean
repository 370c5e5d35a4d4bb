import FrameCode.Proofs.Encoding
import Mathlib.Algebra.Order.Group.Nat
import Mathlib.Data.List.Lex

/-!
# The order of encoded texts

Texts are ordered by the codes of their characters, the first difference deciding, and so are the
bytes of their encodings. The two orders are one (`lex_encoded_iff`).

What carries the argument is that the encodings of two characters differ somewhere, and the lesser
character has the lesser byte there, so nothing that follows them matters (`KeepsOrder`). For such a
code the order of coded texts follows by comparing texts character by character
(`lex_flatMap_iff`). That the encoding is one comes from its form (`utf8EncodeChar_eq`): a first
byte that tells how many bytes follow, the more the greater it is, and then the last digits of the
code to the base 64.
-/

namespace FrameCode.Text

/-! ## Codes that keep the order of characters -/

section KeepsOrder

variable {β : Type} [LT β] {f : Char → List β}

/-- The codes of two characters differ, and at the first difference the lesser character has the
lesser entry. -/
def KeepsOrder (f : Char → List β) : Prop :=
  ∀ c d : Char, c.toNat < d.toNat → ∀ x y, List.Lex (· < ·) (f c ++ x) (f d ++ y)

/-- What two sequences begin with in common does not matter to their order. -/
theorem lex_append_iff [Std.Irrefl fun a b : β => a < b] (p x y : List β) :
    List.Lex (· < ·) (p ++ x) (p ++ y) ↔ List.Lex (· < ·) x y := by
  induction p with
  | nil => rfl
  | cons b p ih => exact List.lex_cons_iff.trans ih

/-- Texts are ordered as what they are coded in. -/
theorem lex_flatMap_iff [Std.Asymm fun a b : β => a < b] (hne : ∀ c, f c ≠ []) (hf : KeepsOrder f)
    (cs ds : List Char) :
    List.Lex (· < ·) (cs.flatMap f) (ds.flatMap f) ↔
      List.Lex (fun c d : Char => c.toNat < d.toNat) cs ds := by
  -- Both texts are followed until one ends or they differ, so the second one varies.
  induction cs generalizing ds with
  | nil =>
    cases ds with
    | nil => simp
    | cons d ds =>
      obtain ⟨b, rest, hd⟩ := List.exists_cons_of_ne_nil (hne d)
      rw [List.flatMap_cons, hd]
      exact ⟨fun _ => .nil, fun _ => .nil⟩
  | cons c cs ih =>
    cases ds with
    | nil => exact ⟨fun h => absurd h List.not_lex_nil, fun h => absurd h List.not_lex_nil⟩
    | cons d ds =>
      rw [List.flatMap_cons, List.flatMap_cons]
      rcases Nat.lt_trichotomy c.toNat d.toNat with hlt | heq | hgt
      · exact ⟨fun _ => .rel hlt, fun _ => hf c d hlt _ _⟩
      · -- Equal characters have the same code, and the rest decides.
        have hcd : c = d := Char.toNat_inj.mp heq
        have hrest : List.Lex (fun c d : Char => c.toNat < d.toNat) (d :: cs) (d :: ds) ↔
            List.Lex (fun c d : Char => c.toNat < d.toNat) cs ds := by
          rw [List.cons_lex_cons_iff]
          simp
        rw [hcd, lex_append_iff, hrest]
        exact ih ds
      · -- The order is the other way round on both sides, so neither holds.
        have hback := hf d c hgt (ds.flatMap f) (cs.flatMap f)
        constructor
        · intro h
          exact absurd hback (Std.Asymm.asymm _ _ h)
        · intro h
          rcases List.cons_lex_cons_iff.mp h with hlt | ⟨heq, -⟩
          · omega
          · rw [heq] at hgt
            omega

end KeepsOrder

/-! ## The form of the encoding of a character -/

/-- The bytes behind the first one: the last digits of a code to the base 64, from the most
significant one on. -/
def followingBytes (n : Nat) : Nat → List UInt8
  | 0 => []
  | k + 1 => UInt8.ofNat (n / 64 ^ k % 64 + 128) :: followingBytes n k

/-- The number of bytes that follow the first one. -/
def followers (n : Nat) : Nat :=
  if n ≤ 0x7F then 0 else if n ≤ 0x7FF then 1 else if n ≤ 0xFFFF then 2 else 3

/-- The least first byte that a number of bytes follows. No byte from `0xF8` on begins a
character. -/
def firstMark : Nat → Nat
  | 0 => 0
  | 1 => 0xC0
  | 2 => 0xE0
  | 3 => 0xF0
  | _ => 0xF8

/-- The first byte: the leading digits of the code on top of the mark. -/
def firstByte (n : Nat) : Nat :=
  n / 64 ^ followers n + firstMark (followers n)

theorem toNat_le (c : Char) : c.toNat ≤ 0x10FFFF := by
  have hvalid : c.toNat.isValidChar := c.valid
  unfold Nat.isValidChar at hvalid
  omega

theorem utf8EncodeChar_eq (c : Char) :
    String.utf8EncodeChar c =
      UInt8.ofNat (firstByte c.toNat) :: followingBytes c.toNat (followers c.toNat) := by
  have hle := toNat_le c
  unfold String.utf8EncodeChar firstByte followers
  simp only [Char.toNat_val]
  -- The leading digits fit into the first byte without being cut.
  by_cases hone : c.toNat ≤ 0x7F
  · simp [if_pos hone, firstMark, followingBytes]
  by_cases htwo : c.toNat ≤ 0x7FF
  · have hlead : c.toNat / 64 % 32 = c.toNat / 64 := Nat.mod_eq_of_lt (by omega)
    simp [if_neg hone, if_pos htwo, firstMark, followingBytes, hlead]
  by_cases hthree : c.toNat ≤ 0xFFFF
  · have hlead : c.toNat / 4096 % 16 = c.toNat / 4096 := Nat.mod_eq_of_lt (by omega)
    simp [if_neg hone, if_neg htwo, if_pos hthree, firstMark, followingBytes, hlead]
  · have hlead : c.toNat / 262144 % 8 = c.toNat / 262144 := Nat.mod_eq_of_lt (by omega)
    simp [if_neg hone, if_neg htwo, if_neg hthree, firstMark, followingBytes, hlead]

/-! ## The encoding keeps the order of characters -/

theorem ofNat_lt_ofNat {a b : Nat} (hlt : a < b) (hb : b < 256) :
    UInt8.ofNat a < UInt8.ofNat b := by
  have ha : a < 256 := by omega
  rw [UInt8.lt_iff_toNat_lt, UInt8.toNat_ofNat_of_lt' ha, UInt8.toNat_ofNat_of_lt' hb]
  exact hlt

/-- Numbers with the same leading digits are ordered by the digits that follow. -/
theorem lex_followingBytes {n m : Nat} (hlt : n < m) (k : Nat) (hsame : n / 64 ^ k = m / 64 ^ k)
    (x y : List UInt8) :
    List.Lex (· < ·) (followingBytes n k ++ x) (followingBytes m k ++ y) := by
  -- With every byte one more digit is known; once all are, the numbers are the same.
  induction k with
  | zero =>
    rw [pow_zero, Nat.div_one, Nat.div_one] at hsame
    omega
  | succ k ih =>
    rw [pow_succ, ← Nat.div_div_eq_div_mul, ← Nat.div_div_eq_div_mul] at hsame
    have hle : n / 64 ^ k ≤ m / 64 ^ k := Nat.div_le_div_right (Nat.le_of_lt hlt)
    by_cases heq : n / 64 ^ k = m / 64 ^ k
    · rw [followingBytes, followingBytes, heq]
      exact .cons (ih heq)
    · -- The next digits differ, and all before them are the same.
      apply List.Lex.rel
      apply ofNat_lt_ofNat
      · omega
      · omega

theorem followers_mono {n m : Nat} (h : n ≤ m) : followers n ≤ followers m := by
  unfold followers
  split_ifs <;> omega

theorem firstMark_mono : Monotone firstMark := by
  apply monotone_nat_of_le_succ
  intro k
  match k with
  | 0 | 1 | 2 | 3 => decide
  | k + 4 => exact Nat.le_refl _

/-- The first byte tells how many bytes follow. -/
theorem firstByte_lt_firstMark {n : Nat} (hn : n ≤ 0x10FFFF) :
    firstByte n < firstMark (followers n + 1) := by
  unfold firstByte followers
  split_ifs
  · simp only [firstMark]
    omega
  · simp only [firstMark]
    omega
  · simp only [firstMark]
    omega
  · simp only [firstMark]
    omega

theorem firstByte_lt {n : Nat} (hn : n ≤ 0x10FFFF) : firstByte n < 256 := by
  have hmark : firstMark (followers n + 1) ≤ firstMark 4 := by
    apply firstMark_mono
    have hfollowers := followers_mono hn
    have hmost : followers 0x10FFFF = 3 := by decide
    omega
  calc firstByte n < firstMark (followers n + 1) := firstByte_lt_firstMark hn
    _ ≤ 0xF8 := hmark
    _ < 256 := by decide

/-- A lesser code has a lesser first byte, or else the same number of bytes and the same leading
digits. -/
theorem firstByte_lt_or {n m : Nat} (hlt : n < m) (hm : m ≤ 0x10FFFF) :
    firstByte n < firstByte m ∨ firstByte n = firstByte m ∧ followers n = followers m ∧
      n / 64 ^ followers n = m / 64 ^ followers n := by
  have hle := followers_mono (Nat.le_of_lt hlt)
  by_cases hsame : followers n = followers m
  · have hdigits : n / 64 ^ followers m ≤ m / 64 ^ followers m :=
      Nat.div_le_div_right (Nat.le_of_lt hlt)
    unfold firstByte
    rw [hsame]
    omega
  · -- More bytes follow the greater code, so its first byte is beyond all those of the lesser.
    left
    calc firstByte n < firstMark (followers n + 1) := firstByte_lt_firstMark (by omega)
      _ ≤ firstMark (followers m) := firstMark_mono (by omega)
      _ ≤ firstByte m := Nat.le_add_left _ _

theorem keepsOrder_utf8EncodeChar : KeepsOrder String.utf8EncodeChar := by
  intro c d hlt x y
  rw [utf8EncodeChar_eq, utf8EncodeChar_eq, List.cons_append, List.cons_append]
  rcases firstByte_lt_or hlt (toNat_le d) with hfirst | ⟨hfirst, hfollowers, hleading⟩
  · exact .rel (ofNat_lt_ofNat hfirst (firstByte_lt (toNat_le d)))
  · rw [hfirst, ← hfollowers]
    exact .cons (lex_followingBytes hlt _ hleading x y)

/-- Encoded texts are ordered as the texts are, by the codes of their characters. -/
theorem lex_encoded_iff (s t : String) :
    List.Lex (· < ·) (encoded s) (encoded t) ↔
      List.Lex (fun c d : Char => c.toNat < d.toNat) s.toList t.toList := by
  rw [encoded_eq_flatMap, encoded_eq_flatMap]
  exact lex_flatMap_iff (fun _ => String.utf8EncodeChar_ne_nil) keepsOrder_utf8EncodeChar _ _

end FrameCode.Text
