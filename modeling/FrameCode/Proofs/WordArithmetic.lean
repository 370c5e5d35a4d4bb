import FrameCode.Machine.Operator
import Mathlib.Algebra.Order.Field.Basic
import Mathlib.Data.Int.ModEq
import Mathlib.Data.Rat.Floor
import Mathlib.Tactic.Linarith

/-!
# Arithmetic of words

Integers are words of 64 bits, and their arithmetic is told here by that of the integers they stand
for.

* **Sums, differences and products** are exact up to a multiple of `2 ^ 64`, and there is one word
  for each class of integers that differ by such multiples (`eq_of_modEq`).
* **Quotients** are rounded down. The division of words rounds toward zero instead, which leaves a
  remainder with the sign of the dividend. A quotient that is rounded down leaves one with the sign
  of the divisor (`FloorRemainder`), and this property singles it out (`floor_div_eq_iff`). So where
  a remainder has the wrong sign, one is taken from the quotient, which puts the divisor on the
  remainder and makes it right (`floorRemainder_corrected`).

Only the least word divided by minus one has a quotient that is no word; it wraps around to the
dividend. One is taken from a quotient only where the division left a remainder, so the divisor is
two or more in size and the quotient far from the least word (`toInt_quotient_sub_one`).
-/

namespace FrameCode.Operator

variable {m n : Int64} {a b k t : ℤ}

/-! ## Sums, differences and products -/

/-- Words that differ by a multiple of `2 ^ 64` are the same word. -/
theorem eq_of_modEq {r r' : Int64} (h : r.toInt ≡ r'.toInt [ZMOD 2 ^ 64]) : r = r' := by
  have hlow := r.le_toInt
  have hhigh := r.toInt_lt
  have hlow' := r'.le_toInt
  have hhigh' := r'.toInt_lt
  have hmod : r.toInt % 2 ^ 64 = r'.toInt % 2 ^ 64 := h
  apply Int64.toInt_inj.mp
  omega

/-- An integer cut to the range of words keeps its class. -/
theorem bmod_modEq (k : ℤ) : k.bmod (2 ^ 64) ≡ k [ZMOD 2 ^ 64] :=
  Int.bmod_emod

theorem toInt_add_modEq (m n : Int64) : (m + n).toInt ≡ m.toInt + n.toInt [ZMOD 2 ^ 64] := by
  rw [Int64.toInt_add]
  exact bmod_modEq _

theorem toInt_sub_modEq (m n : Int64) : (m - n).toInt ≡ m.toInt - n.toInt [ZMOD 2 ^ 64] := by
  rw [Int64.toInt_sub]
  exact bmod_modEq _

theorem toInt_mul_modEq (m n : Int64) : (m * n).toInt ≡ m.toInt * n.toInt [ZMOD 2 ^ 64] := by
  rw [Int64.toInt_mul]
  exact bmod_modEq _

/-! ## Quotients of integers, told by their remainders -/

/-- The remainders that a quotient rounded down leaves: less than the divisor in size, and of its
sign unless zero. -/
def FloorRemainder (b t : ℤ) : Prop :=
  (t = 0 ∨ t.sign = b.sign) ∧ |t| < |b|

theorem floorRemainder_iff_of_pos (hb : 0 < b) : FloorRemainder b t ↔ 0 ≤ t ∧ t < b := by
  unfold FloorRemainder
  rw [Int.sign_eq_one_of_pos hb, Int.sign_eq_one_iff_pos, abs_of_pos hb, abs_lt]
  omega

theorem floorRemainder_iff_of_neg (hb : b < 0) : FloorRemainder b t ↔ b < t ∧ t ≤ 0 := by
  unfold FloorRemainder
  rw [Int.sign_eq_neg_one_of_neg hb, Int.sign_eq_neg_one_iff_neg, abs_of_neg hb, abs_lt]
  omega

/-- An integer is the quotient rounded down exactly if it leaves such a remainder. -/
theorem floor_div_eq_iff (hb : b ≠ 0) :
    ⌊(a : ℚ) / b⌋ = k ↔ FloorRemainder b (a - b * k) := by
  -- The quotient lies between `k` and `k + 1`, so the dividend lies between these multiples of the
  -- divisor.
  have hthis : k * b = b * k := Int.mul_comm k b
  have hnext : (k + 1) * b = b * k + b := by ring
  rw [Int.floor_eq_iff]
  rcases lt_or_gt_of_ne hb with hneg | hpos
  · have hb' : (b : ℚ) < 0 := by exact_mod_cast hneg
    -- Multiplying by a negative divisor turns both inequalities round.
    rw [le_div_iff_of_neg hb', div_lt_iff_of_neg hb', floorRemainder_iff_of_neg hneg]
    norm_cast
    omega
  · have hb' : (0 : ℚ) < b := by exact_mod_cast hpos
    rw [le_div_iff₀ hb', div_lt_iff₀ hb', floorRemainder_iff_of_pos hpos]
    norm_cast
    omega

/-- The remainder of the division toward zero is less than the divisor in size and on the side of
the dividend. -/
theorem tmod_bounds (a : ℤ) (hb : b ≠ 0) :
    |a.tmod b| < |b| ∧ (0 ≤ a → 0 ≤ a.tmod b) ∧ (a < 0 → a.tmod b ≤ 0) := by
  refine ⟨?_, fun ha => Int.tmod_nonneg b ha, fun ha => ?_⟩
  · have hnat : (a.tmod b).natAbs < b.natAbs := by
      rw [Int.natAbs_tmod]
      exact Nat.mod_lt _ (Int.natAbs_pos.mpr hb)
    rw [Int.abs_eq_natAbs, Int.abs_eq_natAbs]
    exact_mod_cast hnat
  · -- The division toward zero treats the opposite dividend alike.
    have hopposite : 0 ≤ (-a).tmod b := Int.tmod_nonneg b (by omega)
    rw [Int.neg_tmod] at hopposite
    omega

/-- A remainder of zero, or one of a dividend with the sign of the divisor, is right as it is. Any
other one is on the wrong side of zero, and right once the divisor is added to it. -/
theorem floorRemainder_corrected (a : ℤ) (hb : b ≠ 0) :
    FloorRemainder b
      (if a.tmod b ≠ 0 ∧ ¬(a < 0 ↔ b < 0) then a.tmod b + b else a.tmod b) := by
  obtain ⟨habs, hnonneg, hnonpos⟩ := tmod_bounds a hb
  rcases lt_or_gt_of_ne hb with hneg | hpos
  · rw [abs_of_neg hneg, abs_lt] at habs
    rw [floorRemainder_iff_of_neg hneg]
    split
    · omega
    · omega
  · rw [abs_of_pos hpos, abs_lt] at habs
    rw [floorRemainder_iff_of_pos hpos]
    split
    · omega
    · omega

/-! ## Quotients of words -/

/-- The quotient of words is that of the integers, the one that is no word excepted. -/
theorem toInt_quotient (h : ¬(m = Int64.minValue ∧ n = -1)) :
    (m / n).toInt = m.toInt.tdiv n.toInt := by
  by_cases hm : m = Int64.minValue
  · exact Int64.toInt_div_of_ne_right m n fun hn => h ⟨hm, hn⟩
  · exact Int64.toInt_div_of_ne_left m n hm

theorem toInt_ne_zero (hn : n ≠ 0) : n.toInt ≠ 0 := by
  intro hzero
  apply hn
  apply Int64.toInt_inj.mp
  rw [hzero, Int64.toInt_zero]

theorem tmod_ne_zero (h : m % n ≠ 0) : m.toInt.tmod n.toInt ≠ 0 := by
  rw [← Int64.toInt_mod]
  exact toInt_ne_zero h

/-- The exceptional division leaves no remainder. -/
theorem not_exceptional_of_remainder (h : m % n ≠ 0) : ¬(m = Int64.minValue ∧ n = -1) := by
  rintro ⟨rfl, rfl⟩
  exact h (by decide)

/-- A quotient with a remainder is at most half the dividend in size. -/
theorem natAbs_tdiv_le_half (h : a.tmod b ≠ 0) : (a.tdiv b).natAbs ≤ a.natAbs / 2 := by
  rw [Int.natAbs_tdiv]
  show a.natAbs / b.natAbs ≤ a.natAbs / 2
  by_cases hb : b = 0
  · rw [hb, Int.natAbs_zero, Nat.div_zero]
    exact Nat.zero_le _
  · -- A divisor of one in size leaves no remainder, so this one is two or more.
    have hone : b.natAbs ≠ 1 := by
      intro hone
      apply h
      rw [← Int.natAbs_eq_zero, Int.natAbs_tmod, hone, Nat.mod_one]
    exact Nat.div_le_div_left (by omega) (by decide)

/-- Where the division leaves a remainder, one less than the quotient is a word. -/
theorem toInt_quotient_sub_one (h : m % n ≠ 0) : (m / n - 1).toInt = (m / n).toInt - 1 := by
  have hhalf := natAbs_tdiv_le_half (tmod_ne_zero h)
  rw [← toInt_quotient (not_exceptional_of_remainder h)] at hhalf
  -- Half of a word, less one, is far from the border.
  have hlow := m.le_toInt
  have hhigh := m.toInt_lt
  rw [Int64.toInt_sub, Int64.toInt_one]
  apply Int.bmod_eq_of_le
  · omega
  · omega

/-- The quotient of words is corrected where its remainder is. -/
theorem corrects_iff (m n : Int64) : (m % n ≠ 0 ∧ decide (m < 0) ≠ decide (n < 0)) ↔
    m.toInt.tmod n.toInt ≠ 0 ∧ ¬(m.toInt < 0 ↔ n.toInt < 0) := by
  apply and_congr
  · rw [← Int64.toInt_mod, ← Int64.toInt_zero, ne_eq, ne_eq, Int64.toInt_inj]
  · rw [ne_eq, decide_eq_decide, Int64.lt_iff_toInt_lt, Int64.lt_iff_toInt_lt, Int64.toInt_zero]

/-- What the corrected quotient leaves of the dividend: one less in the quotient is one divisor more
in the remainder. -/
theorem remainder_floorDiv (h : ¬(m = Int64.minValue ∧ n = -1)) :
    m.toInt - n.toInt * (floorDiv m n).toInt =
      if m.toInt.tmod n.toInt ≠ 0 ∧ ¬(m.toInt < 0 ↔ n.toInt < 0)
      then m.toInt.tmod n.toInt + n.toInt else m.toInt.tmod n.toInt := by
  -- The dividend is the divisor times the quotient toward zero, and the remainder.
  have hdivision := Int.mul_tdiv_add_tmod m.toInt n.toInt
  unfold floorDiv
  by_cases hcorrect : m % n ≠ 0 ∧ decide (m < 0) ≠ decide (n < 0)
  · rw [if_pos hcorrect, if_pos ((corrects_iff m n).mp hcorrect),
      toInt_quotient_sub_one hcorrect.1, toInt_quotient h, Int.mul_sub]
    omega
  · rw [if_neg hcorrect, if_neg (mt (corrects_iff m n).mpr hcorrect), toInt_quotient h]
    omega

theorem toInt_floorDiv (hn : n ≠ 0) (h : ¬(m = Int64.minValue ∧ n = -1)) :
    (floorDiv m n).toInt = ⌊(m.toInt : ℚ) / n.toInt⌋ := by
  have hn' := toInt_ne_zero hn
  symm
  rw [floor_div_eq_iff hn', remainder_floorDiv h]
  exact floorRemainder_corrected m.toInt hn'

/-- Where the quotient is corrected, the subtraction does not wrap around. -/
theorem floorDiv_cases (m n : Int64) : floorDiv m n = m / n ∨
    floorDiv m n = m / n - 1 ∧ (m / n - 1).toInt = (m / n).toInt - 1 := by
  unfold floorDiv
  by_cases hcorrect : m % n ≠ 0 ∧ decide (m < 0) ≠ decide (n < 0)
  · right
    rw [if_pos hcorrect]
    exact ⟨rfl, toInt_quotient_sub_one hcorrect.1⟩
  · left
    rw [if_neg hcorrect]

theorem intDivide_of_ne_zero (m : Int64) (hn : n ≠ 0) :
    intDivide (.int m) (.int n) = .ok (.int (floorDiv m n)) := by
  rw [intDivide, if_neg hn]

/-- A division by zero is reported for two integers, the second one zero, and for nothing else. -/
theorem intDivide_eq_divisionByZero_iff (x y : Value) :
    intDivide x y = .error .divisionByZero ↔ ∃ m, x = .int m ∧ y = .int 0 := by
  constructor
  · intro h
    unfold intDivide at h
    split at h
    · rename_i m n
      by_cases hn : n = 0
      · exact ⟨m, rfl, by rw [hn]⟩
      · rw [if_neg hn] at h
        cases h
    · cases h
  · rintro ⟨m, rfl, rfl⟩
    rfl

/-- **Arithmetic of words.** Sums, differences and products of integers are the words congruent to
the exact results modulo `2 ^ 64`, and congruent words are equal. The quotient by a divisor other
than zero is the exact one rounded down, except that the least word divided by minus one gives
itself; where one is taken from the quotient of words, that does not wrap around. The quotient
rounded down is the integer whose remainder is zero, or of the sign of the divisor, and less than
the divisor in size. The division by zero is reported exactly for two integers of which the second
is zero. -/
theorem words_computed :
    (∀ m n : Int64,
      (∃ r, add (.int m) (.int n) = .ok (.int r) ∧ r.toInt ≡ m.toInt + n.toInt [ZMOD 2 ^ 64]) ∧
      (∃ r, sub (.int m) (.int n) = .ok (.int r) ∧ r.toInt ≡ m.toInt - n.toInt [ZMOD 2 ^ 64]) ∧
      (∃ r, mul (.int m) (.int n) = .ok (.int r) ∧ r.toInt ≡ m.toInt * n.toInt [ZMOD 2 ^ 64])) ∧
    (∀ r r' : Int64, r.toInt ≡ r'.toInt [ZMOD 2 ^ 64] → r = r') ∧
    (∀ m n : Int64, n ≠ 0 →
      (¬(m = Int64.minValue ∧ n = -1) →
        ∃ q, intDivide (.int m) (.int n) = .ok (.int q) ∧
          q.toInt = ⌊(m.toInt : ℚ) / n.toInt⌋) ∧
      (floorDiv m n = m / n ∨
        floorDiv m n = m / n - 1 ∧ (m / n - 1).toInt = (m / n).toInt - 1) ∧
      ∀ k : ℤ, ⌊(m.toInt : ℚ) / n.toInt⌋ = k ↔
        (m.toInt - n.toInt * k = 0 ∨ (m.toInt - n.toInt * k).sign = n.toInt.sign) ∧
          |m.toInt - n.toInt * k| < |n.toInt|) ∧
    intDivide (.int Int64.minValue) (.int (-1)) = .ok (.int Int64.minValue) ∧
    ∀ x y, intDivide x y = .error .divisionByZero ↔ ∃ m, x = .int m ∧ y = .int 0 := by
  refine ⟨fun m n => ⟨?_, ?_, ?_⟩, fun r r' => eq_of_modEq, fun m n hn => ⟨?_, ?_, ?_⟩, ?_,
    intDivide_eq_divisionByZero_iff⟩
  · exact ⟨m + n, rfl, toInt_add_modEq m n⟩
  · exact ⟨m - n, rfl, toInt_sub_modEq m n⟩
  · exact ⟨m * n, rfl, toInt_mul_modEq m n⟩
  · intro h
    exact ⟨floorDiv m n, intDivide_of_ne_zero m hn, toInt_floorDiv hn h⟩
  · exact floorDiv_cases m n
  · intro k
    exact floor_div_eq_iff (toInt_ne_zero hn)
  · decide

/-- The least word by three is corrected and rounded down, and one more than the greatest word is
the least. -/
theorem words_computed_least :
    (3 : Int64) ≠ 0 ∧ ¬(Int64.minValue = Int64.minValue ∧ (3 : Int64) = -1) ∧
      (∃ q, intDivide (.int Int64.minValue) (.int 3) = .ok (.int q) ∧
        q.toInt = ⌊(Int64.minValue.toInt : ℚ) / (3 : Int64).toInt⌋) ∧
      (Int64.maxValue + 1).toInt ≡ Int64.minValue.toInt [ZMOD 2 ^ 64] ∧
      Int64.maxValue + 1 = Int64.minValue := by
  have hthree : (3 : Int64) ≠ 0 := by decide
  have hregular : ¬(Int64.minValue = Int64.minValue ∧ (3 : Int64) = -1) := by decide
  have hcongruent : (Int64.maxValue + 1).toInt ≡ Int64.minValue.toInt [ZMOD 2 ^ 64] := by decide
  exact ⟨hthree, hregular, (words_computed.2.2.1 Int64.minValue 3 hthree).1 hregular, hcongruent,
    words_computed.2.1 _ _ hcongruent⟩

end FrameCode.Operator
