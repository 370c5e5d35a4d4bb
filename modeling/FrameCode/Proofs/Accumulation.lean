import FrameCode.Proofs.Significands
import Mathlib.Algebra.BigOperators.Field
import Mathlib.Data.List.GetD

/-!
# What is left after the digits are collected

The digits of a significand, with and without a point, denote a rational number: each digit times
the power of sixteen of its place (`positional`). `Truncates s v` says how a collected significand
stands to such a number, without a word about the digits: `v` lies in the interval of one unit above
the mantissa, the flag tells whether it is above it at all, and only a mantissa of at least 57 bits
has left anything out.

The invariant of collecting (`Collects`) gives this at the end, whichever side of the point the
digits that were left out came from. A digit is added to the mantissa only if the result has at most
sixty bits, so a word of 64 bits holds every intermediate value.
-/

namespace FrameCode.Binary64

open FrameCode.Text

/-! ## Positional values -/

/-- The value of digits before and after the point: each digit times the power of sixteen of its
place. -/
def positional (before after : List ℕ) : ℚ :=
  (∑ i ∈ Finset.range before.length, (before.getD i 0 : ℚ) * 16 ^ (before.length - 1 - i)) +
    ∑ i ∈ Finset.range after.length, (after.getD i 0 : ℚ) / 16 ^ (i + 1)

/-- A row of digits read from the left is the sum over its places. -/
theorem valueOf_eq_sum (ds : List ℕ) :
    valueOf 16 ds = ∑ i ∈ Finset.range ds.length, ds.getD i 0 * 16 ^ (ds.length - 1 - i) := by
  induction ds using List.reverseRecOn with
  | nil => rfl
  | append_singleton ds d ih =>
    -- The new digit stands in the last place, and the others move up by one.
    have hfront : ∀ i ∈ Finset.range ds.length,
        (ds ++ [d]).getD i 0 * 16 ^ (ds.length + 1 - 1 - i) =
          ds.getD i 0 * 16 ^ (ds.length - 1 - i) * 16 := by
      intro i hi
      have hlt := Finset.mem_range.mp hi
      have hplace : ds.length + 1 - 1 - i = ds.length - 1 - i + 1 := by omega
      rw [List.getD_append _ _ _ _ hlt, hplace, pow_succ, mul_assoc]
    have hlast : (ds ++ [d]).getD ds.length 0 = d := by
      rw [List.getD_append_right _ _ _ _ le_rfl, Nat.sub_self, List.getD_cons_zero]
    have hsnoc : valueOf 16 (ds ++ [d]) = valueOf 16 ds * 16 + d := by
      rw [valueOf, List.foldl_append, List.foldl_cons, List.foldl_nil, valueOf]
    rw [hsnoc, ih, List.length_append, List.length_singleton, Finset.sum_range_succ, hlast,
      Finset.sum_congr rfl hfront, Finset.sum_mul]
    simp

theorem valueOf_append (before after : List ℕ) :
    valueOf 16 (before ++ after) = valueOf 16 before * 16 ^ after.length + valueOf 16 after := by
  rw [valueOf_eq_ofDigits, valueOf_eq_ofDigits, valueOf_eq_ofDigits, List.reverse_append,
    Nat.ofDigits_append, List.length_reverse]
  ring

/-- Moving the point to the end multiplies by a power of sixteen. -/
theorem positional_eq (before after : List ℕ) :
    positional before after = (valueOf 16 (before ++ after) : ℚ) / 16 ^ after.length := by
  have hpow : (16 : ℚ) ^ after.length ≠ 0 := by positivity
  -- A place after the point is one of the row after it, counted from the end.
  have hplaces : ∀ i ∈ Finset.range after.length,
      (after.getD i 0 : ℚ) / 16 ^ (i + 1) =
        (after.getD i 0 : ℚ) * 16 ^ (after.length - 1 - i) / 16 ^ after.length := by
    intro i hi
    have hlt := Finset.mem_range.mp hi
    have hlength : after.length = after.length - 1 - i + (i + 1) := by omega
    have hsplit : (16 : ℚ) ^ after.length = 16 ^ (after.length - 1 - i) * 16 ^ (i + 1) := by
      rw [← pow_add, ← hlength]
    rw [hsplit, mul_comm (16 ^ _), mul_div_mul_right _ _ (by positivity)]
  rw [positional, Finset.sum_congr rfl hplaces, ← Finset.sum_div, valueOf_append, valueOf_eq_sum,
    valueOf_eq_sum]
  push_cast
  rw [add_div, mul_div_cancel_right₀ _ hpow]

namespace Significand

variable {s : Significand} {value places dropped rest d : ℕ} {v : ℚ} {before after : List ℕ}

/-! ## Truncation -/

/-- A significand is a number cut off after its last bit, with a flag for what was cut off. -/
structure Truncates (s : Significand) (v : ℚ) : Prop where
  lt : s.mantissa < 2 ^ 60
  low : s.mantissa * 2 ^ s.exponent ≤ v
  high : v < (s.mantissa + 1) * 2 ^ s.exponent
  sticky_iff : s.sticky = true ↔ v ≠ s.mantissa * 2 ^ s.exponent
  full : s.sticky = true → 2 ^ 56 ≤ s.mantissa

theorem Collects.truncates (h : Collects s value places dropped rest) :
    Truncates s ((value : ℚ) / 16 ^ places) := by
  have hunit : (0 : ℚ) < 2 ^ s.exponent := zpow_pos two_pos _
  have hrest : (0 : ℚ) ≤ rest / 16 ^ dropped := by positivity
  rw [h.div_places, h.div_dropped]
  refine ⟨h.lt, ?_, ?_, ?_, h.le_of_sticky⟩
  · exact mul_le_mul_of_nonneg_right (le_add_of_nonneg_right hrest) hunit.le
  · have hlt := h.rest_div_lt_one
    gcongr
  · have hpow : (16 : ℚ) ^ dropped ≠ 0 := by positivity
    rw [h.sticky_iff, Ne, Ne, mul_left_inj' hunit.ne', add_eq_left, div_eq_zero_iff,
      or_iff_left hpow, Nat.cast_eq_zero]

theorem truncates_ofDigits (hdigits : ∀ d ∈ before ++ after, d < 16) :
    Truncates (ofDigits before after) (positional before after) := by
  obtain ⟨dropped, rest, h⟩ := holds_ofDigits hdigits
  rw [positional_eq]
  exact h.truncates

/-! ## Words -/

/-- Adding a digit, if there is room for it, gives a number that a word of 64 bits holds. -/
def Fits (s : Significand) (d : ℕ) : Prop :=
  s.hasRoom = true → s.mantissa * 16 + d < 2 ^ 64

theorem fits_of_lt (hd : d < 16) : s.Fits d := by
  intro hroom
  have hlt := hasRoom_iff.mp hroom
  omega

/-- **The digits of a significand.** While they are collected, no number needs more than 64 bits.
What is left is their value cut off after at most sixty bits, with the flag set exactly if something
was cut off, and then at least 57 bits are left. So the mantissa with the flag in its lowest bit
rounds to 53 bits as the value does. -/
theorem digits_accumulated (hdigits : ∀ d ∈ before ++ after, d < 16) :
    (∀ read d, read ++ [d] <+: before → (ofDigits read []).Fits d) ∧
    (∀ read d, read ++ [d] <+: after → (ofDigits before read).Fits d) ∧
    Truncates (ofDigits before after) (positional before after) ∧
    (ofDigits before after).merged < 2 ^ 64 ∧
    toPrecision 53 ((ofDigits before after).merged * 2 ^ (ofDigits before after).exponent) =
      toPrecision 53 (positional before after) := by
  have hread : ∀ {read ds : List ℕ} {d : ℕ}, read ++ [d] <+: ds → d ∈ ds := by
    intro read ds d hprefix
    exact hprefix.subset (by simp)
  refine ⟨?_, ?_, truncates_ofDigits hdigits, ?_, ?_⟩
  · intro read d hprefix
    exact fits_of_lt (hdigits d (List.mem_append_left _ (hread hprefix)))
  · intro read d hprefix
    exact fits_of_lt (hdigits d (List.mem_append_right _ (hread hprefix)))
  · obtain ⟨dropped, rest, h⟩ := holds_ofDigits hdigits
    have hlt := h.merged_lt
    omega
  · obtain ⟨dropped, rest, h⟩ := holds_ofDigits hdigits
    rw [positional_eq, h.div_places, toPrecision_mul_zpow 53 (by positivity),
      toPrecision_mul_zpow 53 (by positivity), h.toPrecision_merged]

/-- Fifteen digits fill the mantissa. Of those after them, one before the point raises the exponent,
those after the point do not, and the last one sets the flag. -/
theorem digits_accumulated_full :
    (∀ d ∈ 0 :: List.replicate 15 15 ++ [0] ++ [0, 1], d < 16) ∧
    ofDigits (0 :: List.replicate 15 15 ++ [0]) [0, 1] = ⟨2 ^ 60 - 1, 4, true⟩ ∧
    positional (0 :: List.replicate 15 15 ++ [0]) [0, 1] ≠ ((2 ^ 60 - 1 : ℕ) : ℚ) * 2 ^ (4 : ℤ) ∧
    toPrecision 53 (((2 ^ 60 - 1 ||| 1 : ℕ) : ℚ) * 2 ^ (4 : ℤ)) =
      toPrecision 53 (positional (0 :: List.replicate 15 15 ++ [0]) [0, 1]) := by
  have hdigits : ∀ d ∈ 0 :: List.replicate 15 15 ++ [0] ++ [0, 1], d < 16 := by decide
  have hs : ofDigits (0 :: List.replicate 15 15 ++ [0]) [0, 1] = ⟨2 ^ 60 - 1, 4, true⟩ := by
    decide +kernel
  obtain ⟨-, -, htruncates, -, hround⟩ := digits_accumulated hdigits
  rw [hs] at htruncates hround
  exact ⟨hdigits, hs, htruncates.sticky_iff.mp rfl, hround⟩

end Significand

end FrameCode.Binary64
