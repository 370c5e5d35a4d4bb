import FrameCode.Literal.Integer
import FrameCode.Proofs.HexNotation

/-!
# The decimal notation read back

Every integer word is read back from its decimal text. The text of a natural number has digits only
and does not start with a zero, unless it is the zero alone. So the reader of literals neither takes
it for a marked base nor finds a leading zero in it, and no digit is lost among underscores
(`magnitude?_repr`). A minus in front is taken off before, and the value fits a word because it came
from one.
-/

namespace FrameCode

open FrameCode.Text

namespace Literal

variable {c : Char} {cs : List Char}

/-! ## Natural numbers -/

/-- Digits without underscores are read one by one. -/
theorem separatedDigits?_of_digits (hne : cs ≠ []) (hdigits : ∀ c ∈ cs, isDigit c = true) :
    separatedDigits? 10 cs = some (cs.map fun c => c.toNat - '0'.toNat) := by
  induction cs using separatedDigits?.induct with
  | case1 => exact absurd rfl hne
  | case2 c =>
    have hc := digitValue?_of_isDigit (hdigits c (List.mem_cons_self ..))
    rw [separatedDigits?, hc]
    rfl
  | case3 c rest ih =>
    -- An underscore is no digit.
    have hunderscore := hdigits '_' (by simp)
    exact absurd hunderscore (by decide)
  | case4 c rest hrest hnot ih =>
    have hc := digitValue?_of_isDigit (hdigits c (List.mem_cons_self ..))
    have hds := ih hrest fun d hd => hdigits d (List.mem_cons_of_mem _ hd)
    rw [separatedDigits?, hc, hds]
    · rfl
    · exact hrest
    · exact hnot

/-- The text of a positive number does not start with a zero. -/
theorem exists_repr_eq_cons {n : Nat} (hn : 0 < n) :
    ∃ c cs, n.repr.toList = c :: cs ∧ c ≠ '0' := by
  have hdigit : ∀ d < 10, 0 < d → Nat.digitChar d ≠ '0' := by decide
  rw [Nat.toList_repr]
  induction n using Nat.strongRecOn with
  | ind n ih =>
    by_cases hlt : n < 10
    · exact ⟨n.digitChar, [], Nat.toDigits_of_lt_base hlt, hdigit n hlt hn⟩
    · -- The last digit is set behind the text of the others.
      obtain ⟨c, cs, hhead, hc⟩ := ih (n / 10) (by omega) (by omega)
      rw [Nat.toDigits_of_base_le (by decide) (by omega), hhead]
      exact ⟨c, _, rfl, hc⟩

theorem hasLeadingZero_of_ne (h : c ≠ '0') (hdigit : isDigit c = true) (ds : List Nat) :
    hasLeadingZero ((c.toNat - '0'.toNat) :: ds) = false := by
  have hpos : c.toNat - '0'.toNat ≠ 0 := by
    have hrange := isDigit_iff.mp hdigit
    have hzero : c.toNat ≠ '0'.toNat := fun heq => h (Char.toNat_inj.mp heq)
    have hcode : '0'.toNat = 48 := rfl
    omega
  unfold hasLeadingZero
  split
  · rename_i heq
    exact absurd (List.cons.inj heq).1 hpos
  · rfl

/-- The text of a natural number is read as the number. -/
theorem magnitude?_repr (n : Nat) : magnitude? n.repr.toList = some n := by
  by_cases hn : n = 0
  · rw [hn]
    decide
  · obtain ⟨c, cs, htext, hc⟩ := exists_repr_eq_cons (Nat.pos_of_ne_zero hn)
    have hdigits : ∀ d ∈ c :: cs, isDigit d = true := by
      rw [← htext]
      exact fun d hd => isDigit_of_mem_repr hd
    have hread := digits?_repr n
    rw [htext, digits?_ten_iff.mpr ⟨hdigits, rfl⟩] at hread
    have hkept := hasLeadingZero_of_ne hc (hdigits c (List.mem_cons_self ..))
      (cs.map fun d => d.toNat - '0'.toNat)
    have hdecimal : magnitude? (c :: cs) = (decimalDigits? (c :: cs)).map (valueOf 10) := by
      unfold magnitude?
      split
      · rename_i heq
        exact absurd (List.cons.inj heq).1 hc
      · rfl
    rw [htext, hdecimal, decimalDigits?, separatedDigits?_of_digits (by simp) hdigits,
      List.map_cons, Option.filter_some_pos (by rw [hkept]; rfl)]
    exact hread

/-! ## Words -/

theorem decimal_cases (z : Int) :
    (∃ n : Nat, z = n ∧ (decimal z).toList = n.repr.toList) ∨
      (∃ n : Nat, z = -n ∧ (decimal z).toList = '-' :: n.repr.toList) := by
  cases z with
  | ofNat n => exact .inl ⟨n, rfl, rfl⟩
  | negSucc n => exact .inr ⟨n + 1, Int.negSucc_eq n, by simp [decimal]⟩

theorem isBlank_decimal {z : Int} (h : c ∈ (decimal z).toList) : isBlank c = false := by
  have hchar : c = '-' ∨ isDigit c = true := by
    rcases decimal_cases z with ⟨n, -, htext⟩ | ⟨n, -, htext⟩
    · rw [htext] at h
      exact .inr (isDigit_of_mem_repr h)
    · rw [htext] at h
      rcases List.mem_cons.mp h with rfl | h
      · exact .inl rfl
      · exact .inr (isDigit_of_mem_repr h)
  rcases hchar with rfl | hdigit
  · rfl
  · exact isBlank_of_isDigit hdigit

theorem fitsWord_toInt (n : Int64) : fitsWord n.toInt = true := by
  rw [fitsWord, Bool.and_eq_true, decide_eq_true_eq, decide_eq_true_eq]
  exact ⟨n.minValue_le_toInt, n.toInt_le⟩

/-- **Round trip.** Every integer word is read back from its decimal text. -/
theorem int?_decimal (n : Int64) : int? (decimal n.toInt).toList = some n := by
  have hfits := fitsWord_toInt n
  have hword := n.ofInt_toInt
  unfold int?
  rw [trim_of_forall fun c hc => isBlank_decimal hc]
  rcases decimal_cases n.toInt with ⟨m, hm, htext⟩ | ⟨m, hm, htext⟩
  · rw [htext, takeSign_of_digits fun c hc => isDigit_of_mem_repr hc]
    rw [hm] at hfits hword
    simp only [magnitude?_repr, Option.bind_some, Bool.false_eq_true, if_false, hfits, if_true,
      hword]
  · have hsign : takeSign ('-' :: m.repr.toList) = (true, m.repr.toList) := rfl
    rw [hm] at hfits hword
    simp only [htext, hsign, magnitude?_repr, Option.bind_some, if_true, hfits, hword]

end Literal

end FrameCode
