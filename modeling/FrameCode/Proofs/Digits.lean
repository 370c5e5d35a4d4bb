import FrameCode.Text

/-!
# Digits as they are read

Digits of a base are read one by one (`digits?`) and then taken together as a number (`valueOf`).
In base ten the two come to the value that the standard library gives to digit characters,
`Nat.ofDigitChars 10`, as long as every character is a digit. The text of a natural number is such a
text, so it is read as the number (`digits?_repr`).
-/

namespace FrameCode.Text

variable {base : Nat} {c : Char} {cs ds : List Char}

/-- A text whose characters are digits of a base is read as these digits. -/
theorem digits?_of_forall {value : Char → Nat}
    (h : ∀ c ∈ cs, digitValue? base c = some (value c)) :
    digits? base cs = some (cs.map value) := by
  unfold digits?
  induction cs with
  | nil => rfl
  | cons c cs ih =>
    have hc := h c (List.mem_cons_self ..)
    have hrest := ih fun c' hc' => h c' (List.mem_cons_of_mem _ hc')
    rw [List.mapM_cons, hc, hrest]
    rfl

theorem digits?_eq_none (hc : c ∈ cs) (h : digitValue? base c = none) : digits? base cs = none := by
  unfold digits?
  induction cs with
  | nil => cases hc
  | cons d cs ih =>
    rw [List.mapM_cons]
    rcases List.mem_cons.mp hc with rfl | hc
    · rw [h]
      rfl
    · rw [ih hc]
      cases digitValue? base d with
      | none => rfl
      | some n => rfl

/-! ## Base ten -/

theorem isDigit_iff : isDigit c = true ↔ 48 ≤ c.toNat ∧ c.toNat ≤ 57 := by
  simp [isDigit]

theorem digitValue?_of_isDigit (h : isDigit c = true) :
    digitValue? 10 c = some (c.toNat - '0'.toNat) := by
  have hrange := isDigit_iff.mp h
  have hlt : c.toNat - 48 < 10 := by omega
  simp [digitValue?, hrange, hlt]

theorem digitValue?_of_not_isDigit (h : ¬isDigit c = true) : digitValue? 10 c = none := by
  have hrange : ¬(48 ≤ c.toNat ∧ c.toNat ≤ 57) := fun h' => h (isDigit_iff.mpr h')
  unfold digitValue?
  dsimp only
  rw [if_neg hrange]
  -- What is left are letters, which stand for ten and more.
  split
  · simp
  · split
    · simp
    · rfl

/-- The digits of a text in base ten are its characters, if all of them are digits. -/
theorem digits?_ten_iff {ns : List Nat} :
    digits? 10 cs = some ns ↔
      (∀ c ∈ cs, isDigit c = true) ∧ ns = cs.map fun c => c.toNat - '0'.toNat := by
  constructor
  · intro h
    have hall : ∀ c ∈ cs, isDigit c = true := by
      intro c hc
      by_cases hdigit : isDigit c = true
      · exact hdigit
      · rw [digits?_eq_none hc (digitValue?_of_not_isDigit hdigit)] at h
        cases h
    rw [digits?_of_forall fun c hc => digitValue?_of_isDigit (hall c hc)] at h
    exact ⟨hall, (Option.some.inj h).symm⟩
  · rintro ⟨hall, rfl⟩
    exact digits?_of_forall fun c hc => digitValue?_of_isDigit (hall c hc)

theorem valueOf_ten (cs : List Char) :
    valueOf 10 (cs.map fun c => c.toNat - '0'.toNat) = Nat.ofDigitChars 10 cs 0 := by
  unfold valueOf
  rw [Nat.ofDigitChars_eq_foldl, List.foldl_map]
  simp only [Nat.mul_comm]

/-- Digits have no sign in front. -/
theorem takeSign_of_digits (hdigits : ∀ c ∈ cs, isDigit c = true) : takeSign cs = (false, cs) := by
  unfold takeSign
  split
  · have h := hdigits '-' (List.mem_cons_self ..)
    exact absurd h (by decide)
  · have h := hdigits '+' (List.mem_cons_self ..)
    exact absurd h (by decide)
  · rfl

/-! ## The text of a number -/

theorem isDigit_of_mem_repr {n : Nat} (h : c ∈ n.repr.toList) : isDigit c = true := by
  rw [Nat.toList_repr] at h
  have hdigit := Nat.isDigit_of_mem_toDigits (by decide) (by decide) h
  simp only [Char.isDigit, Bool.and_eq_true, decide_eq_true_eq, UInt32.le_iff_toNat_le] at hdigit
  exact isDigit_iff.mpr hdigit

theorem repr_toList_ne_nil (n : Nat) : n.repr.toList ≠ [] := by
  rw [Nat.toList_repr]
  exact Nat.toDigits_ne_nil

/-- The text of a number is read as the number. -/
theorem digits?_repr (n : Nat) : (digits? 10 n.repr.toList).map (valueOf 10) = some n := by
  have hall : ∀ c ∈ n.repr.toList, isDigit c = true := fun c hc => isDigit_of_mem_repr hc
  rw [digits?_ten_iff.mpr ⟨hall, rfl⟩, Option.map_some, valueOf_ten, Nat.toList_repr,
    Nat.ofDigitChars_ten_toDigits]

theorem eq_of_repr {m n : Nat} (h : m.repr = n.repr) : m = n := by
  have hm := digits?_repr m
  rw [h, digits?_repr n] at hm
  exact (Option.some.inj hm).symm

end FrameCode.Text
