import FrameCode.Proofs.Numerals
import FrameCode.Proofs.Scaling

/-!
# Collecting the digits of a significand

A significand of any length is read into at most sixty bits and one flag. `Collects` is the
invariant of this: the digits read so far form the mantissa and a rest that was left out, and the
flag tells whether the rest is not zero. Both kinds of digits keep it, before the point
(`Holds.pushInteger`) and after it (`Holds.pushFraction`), so it holds of whole texts
(`holds_ofDigits`).

Digits are left out only once the mantissa has 57 bits. Rounding to 53 bits then has a halfway point
that is even as an integer, so an odd number is never taken for it. Setting the lowest bit for a
rest that is not zero therefore rounds as the exact value does (`Collects.toPrecision_merged`), and
scaling the rounded mantissa ends at the number nearest to 53 bits of what was written
(`nearest_computed`).
-/

namespace FrameCode.Binary64

open FrameCode.Text

theorem sixteen_pow (n : ℕ) : (16 : ℚ) ^ n = 2 ^ (4 * (n : ℤ)) := by
  rw [zpow_mul, zpow_natCast]
  norm_num

namespace Significand

variable {s : Significand} {value places dropped rest d : ℕ}

/-! ## The invariant -/

/-- The digits read so far denote `value`, with `places` of them after the point. The last `dropped`
ones were left out of the mantissa and denote `rest`. -/
structure Collects (s : Significand) (value places dropped rest : ℕ) : Prop where
  value_eq : value = s.mantissa * 16 ^ dropped + rest
  rest_lt : rest < 16 ^ dropped
  sticky_iff : s.sticky = true ↔ rest ≠ 0
  exponent_eq : s.exponent = 4 * (dropped : ℤ) - 4 * places
  lt : s.mantissa < 2 ^ 60
  le : 0 < dropped → 2 ^ 56 ≤ s.mantissa

theorem collects_empty : Collects empty 0 0 0 0 :=
  ⟨rfl, by decide, by decide, rfl, by decide, by decide⟩

theorem hasRoom_iff : s.hasRoom = true ↔ s.mantissa < 2 ^ 56 := by
  rw [hasRoom, beq_iff_eq, Nat.shiftRight_eq_div_pow, Nat.div_eq_zero_iff]
  omega

/-- A digit that fits comes before anything was left out. -/
theorem Collects.keep {t : Significand} {places' : ℕ} (h : Collects s value places dropped rest)
    (hroom : s.hasRoom = true) (hd : d < 16) (hmantissa : t.mantissa = s.mantissa * 16 + d)
    (hsticky : t.sticky = s.sticky)
    (hexponent : t.exponent = s.exponent - 4 * ((places' : ℤ) - places)) :
    Collects t (value * 16 + d) places' 0 0 := by
  have hlt := hasRoom_iff.mp hroom
  have hnone : dropped = 0 := by
    by_contra hdropped
    have hle := h.le (Nat.pos_of_ne_zero hdropped)
    omega
  have hvalue := h.value_eq
  have hrest := h.rest_lt
  have hold := h.exponent_eq
  have hflag := h.sticky_iff
  subst hnone
  obtain rfl : rest = 0 := by omega
  refine ⟨?_, by decide, ?_, ?_, ?_, fun h => absurd h (by decide)⟩
  · rw [hmantissa, hvalue]
    ring
  · rw [hsticky]
    exact hflag
  · rw [hexponent, hold]
    ring
  · rw [hmantissa]
    omega

/-- A digit that does not fit is added to the rest. -/
theorem Collects.drop {t : Significand} {places' : ℕ} (h : Collects s value places dropped rest)
    (hroom : ¬s.hasRoom = true) (hd : d < 16) (hmantissa : t.mantissa = s.mantissa)
    (hsticky : t.sticky = (s.sticky || d != 0))
    (hexponent : t.exponent = s.exponent + 4 - 4 * ((places' : ℤ) - places)) :
    Collects t (value * 16 + d) places' (dropped + 1) (rest * 16 + d) := by
  have hfull : 2 ^ 56 ≤ s.mantissa := not_lt.mp (mt hasRoom_iff.mpr hroom)
  have hrest := h.rest_lt
  refine ⟨?_, ?_, ?_, ?_, ?_, fun _ => ?_⟩
  · rw [hmantissa, h.value_eq, pow_succ]
    ring
  · rw [pow_succ]
    omega
  · rw [hsticky, Bool.or_eq_true, h.sticky_iff, bne_iff_ne]
    omega
  · rw [hexponent, h.exponent_eq]
    push_cast
    ring
  · rw [hmantissa]
    exact h.lt
  · rw [hmantissa]
    exact hfull

/-- What has been collected of digits, however many of them were left out. -/
def Holds (s : Significand) (value places : ℕ) : Prop :=
  ∃ dropped rest, Collects s value places dropped rest

/-- One more digit before the point. -/
theorem Holds.pushInteger (h : Holds s value places) (hd : d < 16) :
    Holds (s.pushInteger d) (value * 16 + d) places := by
  obtain ⟨dropped, rest, h⟩ := h
  unfold Significand.pushInteger
  by_cases hroom : s.hasRoom = true
  · rw [if_pos hroom]
    exact ⟨_, _, h.keep hroom hd rfl rfl (by simp)⟩
  · rw [if_neg hroom]
    exact ⟨_, _, h.drop hroom hd rfl rfl (by simp)⟩

/-- One more digit after the point. -/
theorem Holds.pushFraction (h : Holds s value places) (hd : d < 16) :
    Holds (s.pushFraction d) (value * 16 + d) (places + 1) := by
  obtain ⟨dropped, rest, h⟩ := h
  unfold Significand.pushFraction
  by_cases hroom : s.hasRoom = true
  · rw [if_pos hroom]
    exact ⟨_, _, h.keep hroom hd rfl rfl (by simp)⟩
  · rw [if_neg hroom]
    exact ⟨_, _, h.drop hroom hd rfl rfl (by simp)⟩

/-! ## Whole texts -/

theorem Holds.foldl_pushInteger {ds : List ℕ} (h : Holds s value places) (hds : ∀ d ∈ ds, d < 16) :
    Holds (ds.foldl Significand.pushInteger s) (ds.foldl (fun n d => n * 16 + d) value) places := by
  induction ds generalizing s value with
  | nil => exact h
  | cons d ds ih =>
    rw [List.forall_mem_cons] at hds
    exact ih (h.pushInteger hds.1) hds.2

theorem Holds.foldl_pushFraction {ds : List ℕ} (h : Holds s value places) (hds : ∀ d ∈ ds, d < 16) :
    Holds (ds.foldl Significand.pushFraction s) (ds.foldl (fun n d => n * 16 + d) value)
      (places + ds.length) := by
  induction ds generalizing s value places with
  | nil => exact h
  | cons d ds ih =>
    rw [List.forall_mem_cons] at hds
    have hnext := ih (h.pushFraction hds.1) hds.2
    rwa [Nat.add_assoc, Nat.add_comm 1] at hnext

/-- The digits of a whole text are collected. -/
theorem holds_ofDigits {before after : List ℕ} (hdigits : ∀ d ∈ before ++ after, d < 16) :
    Holds (ofDigits before after) (valueOf 16 (before ++ after)) after.length := by
  rw [List.forall_mem_append] at hdigits
  have hbefore := Holds.foldl_pushInteger ⟨0, 0, collects_empty⟩ hdigits.1
  have hafter := hbefore.foldl_pushFraction hdigits.2
  rw [Nat.zero_add] at hafter
  rw [valueOf, List.foldl_append]
  exact hafter

/-! ## The flag in the lowest bit -/

theorem or_one_eq (m : ℕ) : m ||| 1 = 2 * (m / 2) + 1 := by
  have hodd : (m ||| 1) % 2 = 1 := by simp
  have hhalf : (m ||| 1) / 2 = m / 2 := by simp [Nat.or_div_two]
  omega

/-- Between two integers of at least 57 bits, all numbers have the last place of the lower one. -/
theorem lastPlace_between {m : ℕ} {q : ℚ} (hm : 2 ^ 56 ≤ m) (hlow : m ≤ q) (hhigh : q < m + 1) :
    lastPlace 53 q = ((4 * 2 ^ (Nat.log 2 m - 54) : ℕ) : ℚ) := by
  have hlog : 56 ≤ Nat.log 2 m := Nat.le_log_of_pow_le one_lt_two hm
  have hone : (1 : ℚ) ≤ m := by exact_mod_cast (by omega : 1 ≤ m)
  have hfloor : ⌊q⌋₊ = m := (Nat.floor_eq_iff (by linarith)).mpr ⟨hlow, hhigh⟩
  have hexponent : ((Nat.log 2 m : ℕ) : ℤ) - (53 : ℕ) + 1 = ((Nat.log 2 m - 54 + 2 : ℕ) : ℤ) := by
    omega
  rw [lastPlace, Int.log_of_one_le_right 2 (hone.trans hlow), hfloor, hexponent, zpow_natCast,
    pow_add]
  push_cast
  ring

/-- A number strictly between two integers is rounded to a multiple of `4 * h` as the odd one of the
two. Multiples of `2 * h` are even, so neither of the two numbers is halfway. -/
theorem roundEven_or_one {m h : ℕ} {q : ℚ} (hpos : 0 < h) (hlow : m < q) (hhigh : q < m + 1) :
    roundEven (q / (4 * h : ℕ)) = roundEven (((m ||| 1 : ℕ) : ℚ) / (4 * h : ℕ)) := by
  have hor := or_one_eq m
  have hdiv : 4 * (h * (m / (4 * h))) + m % (4 * h) = m := by
    rw [← mul_assoc]
    exact Nat.div_add_mod m (4 * h)
  have hmod : m % (4 * h) < 4 * h := Nat.mod_lt m (by omega)
  generalize m / (4 * h) = c at hdiv
  generalize m % (4 * h) = r at hdiv hmod
  have hunit : (0 : ℚ) < (4 * h : ℕ) := by exact_mod_cast (by omega : 0 < 4 * h)
  have hdown : ∀ x : ℚ, (4 * (h * c) : ℕ) ≤ x → x < (4 * (h * c) + 2 * h : ℕ) →
      roundEven (x / (4 * h : ℕ)) = c := by
    intro x hle hlt
    push_cast at hle hlt hunit ⊢
    refine roundEven_of_lt_half ?_ ?_
    · rw [le_div_iff₀ hunit]
      push_cast
      linarith
    · rw [div_lt_iff₀ hunit]
      push_cast
      linarith
  have hup : ∀ x : ℚ, (4 * (h * c) + 2 * h : ℕ) < x → x < (4 * (h * c) + 4 * h : ℕ) →
      roundEven (x / (4 * h : ℕ)) = c + 1 := by
    intro x hgt hlt
    push_cast at hgt hlt hunit ⊢
    refine roundEven_of_half_lt ?_ ?_
    · rw [lt_div_iff₀ hunit]
      push_cast
      linarith
    · rw [div_lt_iff₀ hunit]
      push_cast
      linarith
  by_cases hr : r < 2 * h
  · have hm : (4 * (h * c) : ℕ) ≤ (m : ℚ) := by exact_mod_cast (by omega : 4 * (h * c) ≤ m)
    have hm' : (m : ℚ) + 1 ≤ (4 * (h * c) + 2 * h : ℕ) := by
      exact_mod_cast (by omega : m + 1 ≤ 4 * (h * c) + 2 * h)
    rw [hdown q (by linarith) (by linarith), hdown _ (Nat.cast_le.mpr (by omega))
      (Nat.cast_lt.mpr (by omega))]
  · have hm : (4 * (h * c) + 2 * h : ℕ) ≤ (m : ℚ) := by
      exact_mod_cast (by omega : 4 * (h * c) + 2 * h ≤ m)
    have hm' : (m : ℚ) + 1 ≤ (4 * (h * c) + 4 * h : ℕ) := by
      exact_mod_cast (by omega : m + 1 ≤ 4 * (h * c) + 4 * h)
    rw [hup q (by linarith) (by linarith), hup _ (Nat.cast_lt.mpr (by omega))
      (Nat.cast_lt.mpr (by omega))]

/-- The odd one of two neighbours of at least 57 bits has the last place of the lower one. -/
theorem lastPlace_or_one {m : ℕ} (hm : 2 ^ 56 ≤ m) :
    lastPlace 53 ((m ||| 1 : ℕ) : ℚ) = ((4 * 2 ^ (Nat.log 2 m - 54) : ℕ) : ℚ) := by
  have hor := or_one_eq m
  by_cases hodd : m % 2 = 1
  · have heq : m ||| 1 = m := by omega
    rw [heq]
    exact lastPlace_between hm le_rfl (by linarith)
  · -- An even number and its successor have the same highest bit.
    have heq : m ||| 1 = m + 1 := by omega
    have hsame : Nat.log 2 (m + 1) = Nat.log 2 m := by
      refine Nat.log_eq_of_pow_le_of_lt_pow ((Nat.pow_log_le_self 2 (by omega)).trans (by omega)) ?_
      have hlt := Nat.lt_pow_succ_log_self one_lt_two m
      rw [pow_succ] at hlt ⊢
      omega
    rw [heq, ← hsame]
    exact lastPlace_between (m := m + 1) (by omega) le_rfl (by linarith)

/-- Between two integers of at least 57 bits, rounding to 53 bits is that of the odd one. -/
theorem toPrecision_or_one {m : ℕ} {q : ℚ} (hm : 2 ^ 56 ≤ m) (hlow : m < q) (hhigh : q < m + 1) :
    toPrecision 53 q = toPrecision 53 ((m ||| 1 : ℕ) : ℚ) := by
  rw [toPrecision, toPrecision, lastPlace_between hm hlow.le hhigh, lastPlace_or_one hm,
    roundEven_or_one (Nat.two_pow_pos _) hlow hhigh]

/-- The mantissa is followed by the rest, as a fraction of its last bit. -/
theorem Collects.div_dropped (h : Collects s value places dropped rest) :
    (value : ℚ) / 16 ^ dropped = s.mantissa + rest / 16 ^ dropped := by
  have hpow : (16 : ℚ) ^ dropped ≠ 0 := by positivity
  rw [h.value_eq]
  push_cast
  rw [add_div, mul_div_cancel_right₀ _ hpow]

theorem Collects.rest_div_lt_one (h : Collects s value places dropped rest) :
    (rest : ℚ) / 16 ^ dropped < 1 := by
  have hpow : (0 : ℚ) < 16 ^ dropped := by positivity
  rw [div_lt_one hpow]
  exact_mod_cast h.rest_lt

/-- Only a full mantissa comes with the flag. -/
theorem Collects.le_of_sticky (h : Collects s value places dropped rest)
    (hsticky : s.sticky = true) : 2 ^ 56 ≤ s.mantissa := by
  have hrest := h.sticky_iff.mp hsticky
  have hlt := h.rest_lt
  refine h.le (Nat.pos_of_ne_zero ?_)
  rintro rfl
  omega

/-- **The flag breaks ties.** The mantissa with the flag merged into it rounds to 53 bits as all the
digits do, those left out included. -/
theorem Collects.toPrecision_merged (h : Collects s value places dropped rest) :
    toPrecision 53 ((value : ℚ) / 16 ^ dropped) = toPrecision 53 (s.merged : ℚ) := by
  have hflag := h.sticky_iff
  unfold merged
  by_cases hsticky : s.sticky = true
  · rw [if_pos hsticky, h.div_dropped]
    have hrest : 0 < rest := Nat.pos_of_ne_zero (hflag.mp hsticky)
    refine toPrecision_or_one (h.le_of_sticky hsticky) ?_ ?_
    · have hpos : (0 : ℚ) < rest / 16 ^ dropped := by positivity
      linarith
    · have hlt := h.rest_div_lt_one
      linarith
  · have hrest : rest = 0 := by
      by_contra hne
      exact hsticky (hflag.mpr hne)
    rw [if_neg hsticky, h.div_dropped, hrest, Nat.cast_zero, zero_div, add_zero]

/-- The exponent counts the digits that were left out against those after the point. -/
theorem Collects.div_places (h : Collects s value places dropped rest) :
    (value : ℚ) / 16 ^ places = value / 16 ^ dropped * 2 ^ s.exponent := by
  rw [h.exponent_eq, zpow_sub₀ two_ne_zero, ← sixteen_pow, ← sixteen_pow]
  field_simp

theorem Collects.merged_lt (h : Collects s value places dropped rest) : s.merged < 2 ^ 60 := by
  have hlt := h.lt
  have hor := or_one_eq s.mantissa
  unfold merged
  split
  · omega
  · exact hlt

end Significand

/-! ## What is written -/

variable {before after : List ℕ}

/-- The exact value of hexadecimal digits before and after the point, times a power of two. -/
def writtenValue (before after : List ℕ) (e : ℤ) : ℚ :=
  ((Nat.ofDigits 16 (before ++ after).reverse : ℕ) : ℚ) / 16 ^ after.length * 2 ^ e

/-- Each digit after the point lowers the exponent by four. -/
theorem writtenValue_eq (before after : List ℕ) (e : ℤ) :
    writtenValue before after e
      = (Nat.ofDigits 16 (before ++ after).reverse : ℕ) * 2 ^ (e - 4 * after.length) := by
  rw [writtenValue, sixteen_pow, zpow_sub₀ two_ne_zero, div_mul_eq_mul_div, mul_div_assoc]

/-- The number that is computed from digits and an exponent: the mantissa as a number, scaled. -/
def computed (before after : List ℕ) (e : ℤ) : Binary64 :=
  scale (ofNat false (Significand.ofDigits before after).merged)
    ((Significand.ofDigits before after).exponent + e)

/-- **Digits of any number.** What is computed from digits and an exponent is nearest to 53
significant bits of what they denote. -/
theorem nearest_computed (hdigits : ∀ d ∈ before ++ after, d < 16) (e : ℤ) :
    Nearest (toPrecision 53 (writtenValue before after e)) (computed before after e) ∧
      (computed before after e).isNegative = false := by
  obtain ⟨dropped, rest, h⟩ := Significand.holds_ofDigits hdigits
  obtain ⟨hmoderate, hsize⟩ := moderate_ofNat h.merged_lt
  have hscale := nearest_scale hmoderate ((Significand.ofDigits before after).exponent + e)
  have hwritten : writtenValue before after e
      = (valueOf 16 (before ++ after) : ℚ) / 16 ^ dropped
        * 2 ^ ((Significand.ofDigits before after).exponent + e) := by
    rw [writtenValue, ← valueOf_eq_ofDigits, h.div_places, zpow_add₀ two_ne_zero, mul_assoc]
  rwa [hsize, ← h.toPrecision_merged, ← toPrecision_mul_zpow 53 (by positivity),
    ← hwritten] at hscale

end FrameCode.Binary64
