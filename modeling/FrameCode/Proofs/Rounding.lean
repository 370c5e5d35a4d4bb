import FrameCode.Proofs.Quanta
import Mathlib.Algebra.Order.Floor.Semifield
import Mathlib.Data.Int.Log
import Mathlib.Data.Rat.Floor
import Mathlib.Tactic.FieldSimp
import Mathlib.Tactic.Linarith
import Mathlib.Tactic.Positivity

/-!
# Rounding to the nearest number

Rounding of doubles is defined on words, by one division of natural numbers. Here it is measured
against what rounding is meant to be, stated over rational numbers.

* `roundEven q` is the integer nearest to `q`, a tie going to the even one; `toPrecision n q` keeps
  `n` significant bits of `q` in this way, whatever its exponent.
* `Nearest q x` says that no double is nearer to `q` than `x`, and that `x` has an even significand
  if another one is as near. Infinities take part with the size `2 ^ 1024`, the power of two that
  follows the largest finite number. So what is nearer to that power than to any finite number
  overflows, and the halfway point does too, as a power of two is even.

Rounding an exact ratio gives the nearest number (`nearest_round`), and a product is nearest to the
product of the sizes (`nearest_product`). For normal numbers rounding keeps 53 bits
(`nearest_toPrecision_round`). The comparison of two words comes down to their units in the last
place: on the grid of the larger unit rounding is to the nearest integer, and numbers with a smaller
unit lie below the whole binade.
-/

namespace FrameCode.Binary64

variable {x y z : Binary64} {q : ℚ} {a d k m : ℕ}

/-! ## The nearest integer -/

/-- The integer nearest to a rational number; of two equally near ones the even one. -/
def roundEven (q : ℚ) : ℤ :=
  if q - ⌊q⌋ < 1 / 2 then ⌊q⌋
  else if 1 / 2 < q - ⌊q⌋ then ⌊q⌋ + 1
  else ⌊q⌋ + ⌊q⌋ % 2

/-- Rounding of a ratio of natural numbers is rounding to the nearest integer. -/
theorem nearest_eq_roundEven (a : ℕ) (hd : 0 < d) :
    (nearest a d : ℤ) = roundEven ((a : ℚ) / d) := by
  have hdq : (0 : ℚ) < d := by exact_mod_cast hd
  have hfloor : ⌊(a : ℚ) / d⌋ = ((a / d : ℕ) : ℤ) := by
    rw [Rat.floor_natCast_div_natCast]
    exact (Int.natCast_div a d).symm
  have hrest : (a : ℚ) / d - ⌊(a : ℚ) / d⌋ = ((a % d : ℕ) : ℚ) / d := by
    have hdiv : (a : ℚ) = d * ((a / d : ℕ) : ℚ) + ((a % d : ℕ) : ℚ) := by
      exact_mod_cast (Nat.div_add_mod a d).symm
    rw [hfloor, Int.cast_natCast, div_sub' hdq.ne', eq_sub_of_add_eq' hdiv.symm]
  unfold nearest roundEven
  rw [hrest, hfloor]
  dsimp only
  have hless : ((a % d : ℕ) : ℚ) / d < 1 / 2 ↔ 2 * (a % d) < d := by
    rw [div_lt_div_iff₀ hdq two_pos, one_mul, mul_comm]
    exact_mod_cast Iff.rfl
  have hmore : 1 / 2 < ((a % d : ℕ) : ℚ) / d ↔ d < 2 * (a % d) := by
    rw [div_lt_div_iff₀ two_pos hdq, one_mul, mul_comm]
    exact_mod_cast Iff.rfl
  simp only [hless, hmore]
  split
  · rfl
  · split
    · push_cast
      rfl
    · push_cast
      rfl

theorem roundEven_bounds (q : ℚ) : ⌊q⌋ ≤ roundEven q ∧ roundEven q ≤ ⌊q⌋ + 1 := by
  unfold roundEven
  split
  · omega
  · split
    · omega
    · omega

theorem le_roundEven {n : ℤ} (h : (n : ℚ) ≤ q) : n ≤ roundEven q :=
  (Int.le_floor.mpr h).trans (roundEven_bounds q).1

theorem roundEven_le {n : ℤ} (h : q ≤ n) : roundEven q ≤ n := by
  -- An integer is its own floor, and below an integer the next one is not passed.
  by_cases heq : q = n
  · rw [heq, roundEven]
    simp
  · have hlt : ⌊q⌋ < n := Int.floor_lt.mpr (lt_of_le_of_ne h heq)
    have hupper := (roundEven_bounds q).2
    omega

/-- In the lower half between two integers rounding goes down. -/
theorem roundEven_of_lt_half {n : ℤ} (hlow : (n : ℚ) ≤ q) (hhigh : q < n + 1 / 2) :
    roundEven q = n := by
  have hfloor : ⌊q⌋ = n := Int.floor_eq_iff.mpr ⟨hlow, by linarith⟩
  unfold roundEven
  rw [hfloor, if_pos (by linarith)]

/-- In the upper half between two integers rounding goes up. -/
theorem roundEven_of_half_lt {n : ℤ} (hlow : n + 1 / 2 < q) (hhigh : q < n + 1) :
    roundEven q = n + 1 := by
  have hfloor : ⌊q⌋ = n := Int.floor_eq_iff.mpr ⟨by linarith, hhigh⟩
  unfold roundEven
  rw [hfloor, if_neg (by linarith), if_pos (by linarith)]

/-- A number is at most one half away from what it is rounded to, and in a tie that is even. -/
theorem abs_roundEven_sub_le (q : ℚ) :
    |roundEven q - q| ≤ 1 / 2 ∧ (|roundEven q - q| = 1 / 2 → Even (roundEven q)) := by
  have hlow := Int.floor_le q
  have hhigh := Int.lt_floor_add_one q
  unfold roundEven
  split
  · rename_i hless
    have habs : |(⌊q⌋ : ℚ) - q| < 1 / 2 := by
      rw [abs_lt]
      constructor <;> linarith
    exact ⟨habs.le, fun h => absurd h habs.ne⟩
  · split
    · rename_i hmore
      have habs : |((⌊q⌋ + 1 : ℤ) : ℚ) - q| < 1 / 2 := by
        push_cast
        rw [abs_lt]
        constructor <;> linarith
      exact ⟨habs.le, fun h => absurd h habs.ne⟩
    · -- Halfway between two integers, one of which is even.
      rename_i hless hmore
      have heven : Even (⌊q⌋ + ⌊q⌋ % 2) := by
        rw [Int.even_iff]
        omega
      refine ⟨?_, fun _ => heven⟩
      have hparity : ⌊q⌋ % 2 = 0 ∨ ⌊q⌋ % 2 = 1 := by omega
      rw [abs_le]
      rcases hparity with h | h
      · rw [h]
        push_cast
        constructor <;> linarith
      · rw [h]
        push_cast
        constructor <;> linarith

/-- No integer is nearer than the one that is rounded to, and in a tie that is even. -/
theorem roundEven_nearest (q : ℚ) (n : ℤ) :
    |roundEven q - q| ≤ |n - q| ∧
      (|n - q| = |roundEven q - q| → n ≠ roundEven q → Even (roundEven q)) := by
  obtain ⟨hhalf, heven⟩ := abs_roundEven_sub_le q
  by_cases hn : n = roundEven q
  · rw [hn]
    exact ⟨le_rfl, fun _ hne => absurd rfl hne⟩
  · -- Two different integers are one apart, so the other one is at least one half away.
    have hone : (1 : ℚ) ≤ |(n : ℚ) - roundEven q| := by
      have h : 1 ≤ |n - roundEven q| := Int.one_le_abs (sub_ne_zero.mpr hn)
      exact_mod_cast h
    have htriangle : |(n : ℚ) - roundEven q| ≤ |n - q| + |roundEven q - q| := by
      rw [abs_sub_comm (roundEven q : ℚ) q]
      exact abs_sub_le _ _ _
    refine ⟨by linarith, fun htie _ => heven (le_antisymm hhalf (by linarith))⟩

/-! ## Significant bits -/

/-- The unit in the last place of the first `n` significant bits. -/
def lastPlace (n : ℕ) (q : ℚ) : ℚ :=
  2 ^ (Int.log 2 q - n + 1)

/-- A number rounded to `n` significant bits, ties to even, with no bound on its exponent. -/
def toPrecision (n : ℕ) (q : ℚ) : ℚ :=
  roundEven (q / lastPlace n q) * lastPlace n q

theorem lastPlace_pos (n : ℕ) (q : ℚ) : 0 < lastPlace n q :=
  zpow_pos two_pos _

theorem toPrecision_zero (n : ℕ) : toPrecision n 0 = 0 := by
  simp [toPrecision, roundEven]

theorem log_mul_zpow (hq : 0 < q) (e : ℤ) : Int.log 2 (q * 2 ^ e) = Int.log 2 q + e := by
  have hpos : 0 < q * 2 ^ e := mul_pos hq (zpow_pos two_pos e)
  have hlow : (2 : ℚ) ^ Int.log 2 q ≤ q := by exact_mod_cast Int.zpow_log_le_self one_lt_two hq
  have hhigh : q < (2 : ℚ) ^ (Int.log 2 q + 1) := by
    exact_mod_cast Int.lt_zpow_succ_log_self one_lt_two q
  have hle : Int.log 2 q + e ≤ Int.log 2 (q * 2 ^ e) := by
    rw [← Int.zpow_le_iff_le_log one_lt_two hpos, Nat.cast_ofNat, zpow_add₀ two_ne_zero]
    exact mul_le_mul_of_nonneg_right hlow (zpow_pos two_pos e).le
  have hlt : Int.log 2 (q * 2 ^ e) < Int.log 2 q + 1 + e := by
    rw [← Int.lt_zpow_iff_log_lt one_lt_two hpos, Nat.cast_ofNat, zpow_add₀ two_ne_zero]
    exact mul_lt_mul_of_pos_right hhigh (zpow_pos two_pos e)
  omega

/-- Significant bits do not depend on the exponent. -/
theorem toPrecision_mul_zpow (n : ℕ) (hq : 0 ≤ q) (e : ℤ) :
    toPrecision n (q * 2 ^ e) = toPrecision n q * 2 ^ e := by
  rcases hq.eq_or_lt with rfl | hq
  · rw [zero_mul, toPrecision_zero, zero_mul]
  · have hplace : lastPlace n (q * 2 ^ e) = lastPlace n q * 2 ^ e := by
      unfold lastPlace
      rw [log_mul_zpow hq, ← zpow_add₀ two_ne_zero]
      congr 1
      ring
    have hratio : q * 2 ^ e / (lastPlace n q * 2 ^ e) = q / lastPlace n q :=
      mul_div_mul_right _ _ (zpow_pos two_pos e).ne'
    unfold toPrecision
    rw [hplace, hratio, mul_assoc]

theorem toPrecision_nonneg (n : ℕ) (hq : 0 ≤ q) : 0 ≤ toPrecision n q := by
  have hratio : ((0 : ℤ) : ℚ) ≤ q / lastPlace n q := by
    rw [Int.cast_zero]
    exact div_nonneg hq (lastPlace_pos n q).le
  exact mul_nonneg (by exact_mod_cast le_roundEven hratio) (lastPlace_pos n q).le

/-- Rounding does not pass a power of two, which has one significant bit. -/
theorem toPrecision_le {n : ℕ} (hn : n ≠ 0) {e : ℤ} (hq : 0 ≤ q) (h : q ≤ 2 ^ e) :
    toPrecision n q ≤ 2 ^ e := by
  rcases hq.eq_or_lt with rfl | hq
  · rw [toPrecision_zero]
    exact (zpow_pos two_pos e).le
  · have hlog : Int.log 2 q ≤ e := by
      have hpower := Int.log_zpow (R := ℚ) one_lt_two e
      rw [Nat.cast_ofNat] at hpower
      rw [← hpower]
      exact Int.log_mono_right hq h
    obtain ⟨j, hj⟩ := Int.eq_ofNat_of_zero_le (by omega : 0 ≤ e - (Int.log 2 q - n + 1))
    have hpower : (2 : ℚ) ^ e = ((2 ^ j : ℕ) : ℤ) * lastPlace n q := by
      rw [lastPlace, Int.cast_natCast, Nat.cast_pow, Nat.cast_ofNat, ← zpow_natCast,
        ← zpow_add₀ two_ne_zero]
      congr 1
      omega
    rw [hpower, ← div_le_iff₀ (lastPlace_pos n q)] at h
    rw [hpower]
    exact mul_le_mul_of_nonneg_right (by exact_mod_cast roundEven_le h) (lastPlace_pos n q).le

/-! ## Sizes of words -/

/-- The size of a number. That of an infinity is `2 ^ 1024`. -/
def size (x : Binary64) : ℚ :=
  x.quanta / unit

theorem unit_pos_rat : (0 : ℚ) < unit := by
  exact_mod_cast unit_pos

theorem isNaN_eq_false_iff : x.isNaN = false ↔ x.magnitude ≤ infinityWord := by
  simp [isNaN]

/-- Every word is a significand and the exponent of its last place. -/
theorem exists_significand (x : Binary64) :
    ∃ m k, m < 2 * binade ∧ (k = 0 ∨ binade ≤ m) ∧ x.magnitude = k * binade + m := by
  by_cases hsmall : x.magnitude < binade
  · exact ⟨x.magnitude, 0, by omega, .inl rfl, by omega⟩
  · refine ⟨binade + x.magnitude % binade, x.magnitude / binade - 1, ?_, .inr (by omega), ?_⟩
    · unfold binade
      omega
    · unfold binade at *
      omega

/-- The quanta of a word, its significand carried over into the exponent if need be. -/
theorem quanta_of_magnitude (hm : m ≤ 2 * binade) (hnormal : k = 0 ∨ binade ≤ m)
    (hx : x.magnitude = k * binade + m) : x.quanta = m * 2 ^ k := by
  unfold quanta exponentField fraction
  rw [hx]
  by_cases hcarry : m = 2 * binade
  · -- One bit too many: the least significand with the next exponent.
    have hexponent : (k * binade + m) / binade = k + 2 := by
      unfold binade at *
      omega
    have hfraction : (k * binade + m) % binade = 0 := by
      unfold binade at *
      omega
    rw [hexponent, hfraction, if_neg (Nat.succ_ne_zero _), Nat.shiftLeft_eq, hcarry]
    have hpow : 2 ^ (k + 2 - 1) = 2 * 2 ^ k := by
      rw [Nat.add_sub_assoc (by decide), pow_succ]
      ring
    rw [hpow]
    ring
  · by_cases hbinade : binade ≤ m
    · have hexponent : (k * binade + m) / binade = k + 1 := by
        unfold binade at *
        omega
      have hfraction : (k * binade + m) % binade = m - binade := by
        unfold binade at *
        omega
      rw [hexponent, hfraction, if_neg (Nat.succ_ne_zero k), Nat.add_sub_cancel, Nat.shiftLeft_eq,
        Nat.add_sub_cancel' hbinade]
    · -- Subnormal words have the exponent of the quantum and no hidden bit.
      have hzero : k = 0 := hnormal.resolve_right hbinade
      have hexponent : (k * binade + m) / binade = 0 := by
        unfold binade at *
        omega
      have hfraction : (k * binade + m) % binade = m := by
        unfold binade at *
        omega
      rw [hexponent, hfraction, if_pos rfl, hzero, pow_zero, mul_one]

/-- A larger word has more quanta. -/
theorem quanta_lt_quanta (h : x.magnitude < y.magnitude) : x.quanta < y.quanta := by
  obtain ⟨m, k, hm, hk, hx⟩ := exists_significand x
  obtain ⟨m', k', hm', hk', hy⟩ := exists_significand y
  rw [quanta_of_magnitude hm.le hk hx, quanta_of_magnitude hm'.le hk' hy]
  rw [hx, hy] at h
  rcases Nat.lt_trichotomy k k' with hlt | rfl | hgt
  · -- The significand of the smaller one does not make up for the exponent.
    have hbinade : binade ≤ m' := hk'.resolve_left (by omega)
    calc m * 2 ^ k < 2 * binade * 2 ^ k := Nat.mul_lt_mul_of_pos_right hm (Nat.two_pow_pos k)
      _ = binade * 2 ^ (k + 1) := by rw [pow_succ]; ring
      _ ≤ binade * 2 ^ k' := Nat.mul_le_mul_left _ (Nat.pow_le_pow_right two_pos hlt)
      _ ≤ m' * 2 ^ k' := Nat.mul_le_mul_right _ hbinade
  · exact Nat.mul_lt_mul_of_pos_right (by omega) (Nat.two_pow_pos k)
  · -- The order of the words is that of the exponents first, so this does not happen.
    have hbinade : binade ≤ m := hk.resolve_left (by omega)
    have hwords : (k' + 1) * binade ≤ k * binade := Nat.mul_le_mul_right _ hgt
    rw [Nat.succ_mul] at hwords
    omega

theorem quanta_le_quanta (h : x.magnitude ≤ y.magnitude) : x.quanta ≤ y.quanta := by
  rcases h.eq_or_lt with heq | hlt
  · rw [quanta_eq_of_magnitude heq]
  · exact (quanta_lt_quanta hlt).le

theorem size_lt_size (h : x.magnitude < y.magnitude) : x.size < y.size :=
  div_lt_div_of_pos_right (by exact_mod_cast quanta_lt_quanta h) unit_pos_rat

theorem size_eq_zero (hx : x.magnitude = 0) : x.size = 0 := by
  have hquanta : x.quanta = 0 * 2 ^ 0 := quanta_of_magnitude (Nat.zero_le _) (.inl rfl) hx
  rw [size, hquanta, Nat.zero_mul, Nat.cast_zero, zero_div]

theorem size_nonneg (x : Binary64) : 0 ≤ x.size :=
  div_nonneg (Nat.cast_nonneg _) unit_pos_rat.le

/-! ## The nearest number -/

/-- No number is nearer to `q` in size than `x`, and `x` is even if another one is as near.
Infinities take part as `2 ^ 1024`; the signs are left aside. -/
structure Nearest (q : ℚ) (x : Binary64) : Prop where
  isNaN : x.isNaN = false
  le : ∀ y : Binary64, y.isNaN = false → |x.size - q| ≤ |y.size - q|
  even : ∀ y : Binary64, y.isNaN = false → |y.size - q| = |x.size - q| → y.size ≠ x.size →
    Even x.fraction

/-- Being nearest, counted in quanta. -/
theorem nearest_of_quanta {A : ℚ} (hnan : x.isNaN = false)
    (hle : ∀ y : Binary64, y.isNaN = false → |x.quanta - A| ≤ |y.quanta - A|)
    (heven : ∀ y : Binary64, y.isNaN = false → |(y.quanta : ℚ) - A| = |x.quanta - A| →
      y.quanta ≠ x.quanta → Even x.fraction) : Nearest (A / unit) x := by
  have hdist : ∀ y : Binary64, |y.size - A / unit| = |y.quanta - A| / unit := by
    intro y
    rw [size, ← sub_div, abs_div, abs_of_pos unit_pos_rat]
  refine ⟨hnan, ?_, ?_⟩
  · intro y hy
    rw [hdist, hdist]
    exact div_le_div_of_nonneg_right (hle y hy) unit_pos_rat.le
  · intro y hy htie hne
    rw [hdist, hdist, div_left_inj' unit_pos_rat.ne'] at htie
    refine heven y hy htie fun heq => hne ?_
    rw [size, size, heq]

/-! ## Rounding of ratios -/

/-- The last place that is kept lets the ratio have 53 bits, and no fewer unless it is the
quantum. -/
theorem unitExponent_bounds (hd : 0 < d) :
    (a : ℚ) / d < (2 * binade : ℕ) * 2 ^ unitExponent a d ∧
      (unitExponent a d ≠ 0 → (binade : ℚ) * 2 ^ unitExponent a d ≤ (a : ℚ) / d) := by
  have hdq : (0 : ℚ) < d := by exact_mod_cast hd
  have hbinade := binade_eq
  constructor
  · have hhigh : a / d < 2 * binade * 2 ^ unitExponent a d := by
      rw [hbinade, ← pow_succ', ← pow_add]
      refine Nat.lt_log2_self.trans_le (Nat.pow_le_pow_right two_pos ?_)
      unfold unitExponent
      omega
    rw [div_lt_iff₀ hdq]
    exact_mod_cast (Nat.div_lt_iff_lt_mul hd).mp hhigh
  · intro hk
    have hne : a / d ≠ 0 := by
      intro hzero
      simp [unitExponent, hzero] at hk
    have hlow : binade * 2 ^ unitExponent a d ≤ a / d := by
      rw [hbinade, ← pow_add]
      refine (Nat.pow_le_pow_right two_pos ?_).trans (Nat.log2_self_le hne)
      unfold unitExponent at *
      omega
    rw [le_div_iff₀ hdq]
    exact_mod_cast (Nat.le_div_iff_mul_le hd).mp hlow

/-- The significand that rounding gives: the nearest integer, counted in units of the last place. -/
theorem nearest_significand (hd : 0 < d) :
    (nearest a (d <<< k) : ℤ) = roundEven ((a : ℚ) / d / 2 ^ k) := by
  rw [Nat.shiftLeft_eq, nearest_eq_roundEven a (Nat.mul_pos hd (Nat.two_pow_pos k)), div_div]
  push_cast
  rfl

theorem significand_bounds (hd : 0 < d) :
    nearest a (d <<< unitExponent a d) ≤ 2 * binade ∧
      (unitExponent a d = 0 ∨ binade ≤ nearest a (d <<< unitExponent a d)) := by
  obtain ⟨hhigh, hlow⟩ := unitExponent_bounds (a := a) hd
  have hpow : (0 : ℚ) < 2 ^ unitExponent a d := pow_pos two_pos _
  have hround := nearest_significand (a := a) (k := unitExponent a d) hd
  constructor
  · have hle : roundEven ((a : ℚ) / d / 2 ^ unitExponent a d) ≤ (2 * binade : ℕ) := by
      refine roundEven_le ?_
      rw [div_le_iff₀ hpow]
      exact hhigh.le
    omega
  · by_cases hk : unitExponent a d = 0
    · exact .inl hk
    · have hge : (binade : ℕ) ≤ roundEven ((a : ℚ) / d / 2 ^ unitExponent a d) := by
        refine le_roundEven ?_
        rw [le_div_iff₀ hpow]
        exact hlow hk
      omega

theorem magnitude_round (negative : Bool) (a d : ℕ) :
    (round negative a d).magnitude = roundToWord a d :=
  magnitude_ofMagnitude negative ((Nat.min_le_right _ _).trans_lt infinityWord_lt_signBit)

theorem isNegative_round (negative : Bool) (a d : ℕ) :
    (round negative a d).isNegative = negative :=
  isNegative_ofMagnitude negative ((Nat.min_le_right _ _).trans_lt infinityWord_lt_signBit)

theorem isNaN_round (negative : Bool) (a d : ℕ) : (round negative a d).isNaN = false := by
  rw [isNaN_eq_false_iff, magnitude_round]
  exact Nat.min_le_right _ _

theorem magnitude_infinity (negative : Bool) : (infinity negative).magnitude = infinityWord :=
  magnitude_ofMagnitude negative infinityWord_lt_signBit

theorem quanta_infinity (negative : Bool) : (infinity negative).quanta = binade * 2 ^ 2046 := by
  refine quanta_of_magnitude (by decide) (.inr (le_refl _)) ?_
  rw [magnitude_infinity]
  rfl

theorem even_fraction_iff (x : Binary64) : Even x.fraction ↔ Even x.magnitude := by
  rw [Nat.even_iff, Nat.even_iff]
  unfold fraction binade
  omega

/-- As long as the ratio stays in range, its significand is kept. -/
theorem quanta_round (negative : Bool) (hd : 0 < d) (hk : unitExponent a d ≤ 2045) :
    (round negative a d).quanta = nearest a (d <<< unitExponent a d) * 2 ^ unitExponent a d ∧
      (Even (nearest a (d <<< unitExponent a d)) → Even (round negative a d).fraction) := by
  obtain ⟨hm, hnormal⟩ := significand_bounds (a := a) hd
  have hword : (round negative a d).magnitude
      = unitExponent a d * binade + nearest a (d <<< unitExponent a d) := by
    rw [magnitude_round]
    refine Nat.min_eq_left ?_
    unfold infinityWord binade at *
    omega
  refine ⟨quanta_of_magnitude hm hnormal hword, fun heven => ?_⟩
  have hbinade : Even binade := by decide
  rw [even_fraction_iff, hword]
  exact (hbinade.mul_left _).add heven

/-- A ratio out of range becomes an infinity, which is not larger than it. -/
theorem round_overflow (negative : Bool) (hd : 0 < d) (hk : 2046 ≤ unitExponent a d) :
    round negative a d = infinity negative ∧ ((infinity negative).quanta : ℚ) ≤ (a : ℚ) / d := by
  obtain ⟨-, hnormal⟩ := significand_bounds (a := a) hd
  have hbinade := hnormal.resolve_left (by omega)
  constructor
  · refine congrArg (ofMagnitude negative) (Nat.min_eq_right ?_)
    unfold infinityWord binade at *
    omega
  · refine le_trans ?_ ((unitExponent_bounds (a := a) hd).2 (by omega))
    rw [quanta_infinity]
    generalize 2046 = l at hk ⊢
    exact_mod_cast Nat.mul_le_mul_left _ (Nat.pow_le_pow_right two_pos hk)

/-- Distances on the grid of a unit are those of integers. -/
theorem abs_grid_sub (n : ℤ) (A : ℚ) (k : ℕ) : |n * 2 ^ k - A| = |n - A / 2 ^ k| * 2 ^ k := by
  have hpow : (0 : ℚ) < 2 ^ k := pow_pos two_pos k
  rw [← abs_of_pos hpow, ← abs_mul, abs_of_pos hpow, sub_mul, div_mul_cancel₀ _ hpow.ne']

/-- A number lies on the grid of a unit, or it lies below all that have 53 bits on this grid. Then
it is farther away from what has so many bits than the nearest point of the grid. -/
theorem grid_or_farther {A : ℚ} (hA : k ≠ 0 → (binade : ℚ) * 2 ^ k ≤ A) (y : Binary64) :
    (∃ n : ℤ, (y.quanta : ℚ) = n * 2 ^ k) ∨
      |roundEven (A / 2 ^ k) * 2 ^ k - A| < |y.quanta - A| := by
  obtain ⟨m, l, hm, hnormal, hy⟩ := exists_significand y
  have hquanta := quanta_of_magnitude hm.le hnormal hy
  by_cases hle : k ≤ l
  · refine .inl ⟨(m * 2 ^ (l - k) : ℕ), ?_⟩
    have hpow : m * 2 ^ l = m * 2 ^ (l - k) * 2 ^ k := by
      rw [mul_assoc, ← pow_add, Nat.sub_add_cancel hle]
    rw [hquanta, hpow]
    push_cast
    rfl
  · right
    have hbelow : (y.quanta : ℚ) < (binade : ℤ) * 2 ^ k := by
      have hlt : m * 2 ^ l < binade * 2 ^ k :=
        calc m * 2 ^ l < 2 * binade * 2 ^ l := Nat.mul_lt_mul_of_pos_right hm (Nat.two_pow_pos l)
          _ = binade * 2 ^ (l + 1) := by rw [pow_succ]; ring
          _ ≤ binade * 2 ^ k := Nat.mul_le_mul_left _ (Nat.pow_le_pow_right two_pos (by omega))
      rw [hquanta]
      exact_mod_cast hlt
    -- The edge of the binade lies between `y` and `A`, and it is a point of the grid.
    have hedge : ((binade : ℤ) : ℚ) * 2 ^ k ≤ A := by exact_mod_cast hA (by omega)
    calc |roundEven (A / 2 ^ k) * 2 ^ k - A| ≤ |(binade : ℤ) * 2 ^ k - A| := by
          rw [abs_grid_sub, abs_grid_sub]
          exact mul_le_mul_of_nonneg_right (roundEven_nearest _ _).1 (pow_pos two_pos k).le
      _ = A - (binade : ℤ) * 2 ^ k := by rw [abs_of_nonpos (by linarith), neg_sub]
      _ < A - y.quanta := by linarith
      _ = |y.quanta - A| := by rw [abs_of_nonpos (by linarith), neg_sub]

theorem nearest_round_of_le (negative : Bool) (hd : 0 < d) (hk : unitExponent a d ≤ 2045) :
    Nearest ((a : ℚ) / d / unit) (round negative a d) := by
  obtain ⟨hquanta, hfraction⟩ := quanta_round (a := a) negative hd hk
  have hround := nearest_significand (a := a) (k := unitExponent a d) hd
  have hgrid := grid_or_farther (unitExponent_bounds (a := a) hd).2
  have hpow : (0 : ℚ) < 2 ^ unitExponent a d := pow_pos two_pos _
  have hx : ((round negative a d).quanta : ℚ)
      = roundEven ((a : ℚ) / d / 2 ^ unitExponent a d) * 2 ^ unitExponent a d := by
    rw [hquanta, ← hround]
    push_cast
    rfl
  refine nearest_of_quanta (isNaN_round _ _ _) ?_ ?_
  · intro y _
    rw [hx]
    rcases hgrid y with ⟨n, hn⟩ | hlt
    · rw [hn, abs_grid_sub, abs_grid_sub]
      exact mul_le_mul_of_nonneg_right (roundEven_nearest _ n).1 hpow.le
    · exact hlt.le
  · intro y _ htie hne
    rw [hx] at htie
    rcases hgrid y with ⟨n, hn⟩ | hlt
    · rw [hn, abs_grid_sub, abs_grid_sub, mul_left_inj' hpow.ne'] at htie
      have hother : n ≠ roundEven ((a : ℚ) / d / 2 ^ unitExponent a d) := by
        rintro rfl
        rw [← hx] at hn
        exact hne (by exact_mod_cast hn)
      have heven := (roundEven_nearest _ n).2 htie hother
      rw [← hround, Int.even_coe_nat] at heven
      exact hfraction heven
    · exact absurd htie hlt.ne'

theorem nearest_round_of_gt (negative : Bool) (hd : 0 < d) (hk : 2046 ≤ unitExponent a d) :
    Nearest ((a : ℚ) / d / unit) (round negative a d) := by
  obtain ⟨hinfinite, hA⟩ := round_overflow (a := a) negative hd hk
  rw [hinfinite]
  -- No number is larger than an infinity, and the ratio is not smaller.
  have hle : ∀ y : Binary64, y.isNaN = false → (y.quanta : ℚ) ≤ (infinity negative).quanta := by
    intro y hy
    rw [Nat.cast_le]
    refine quanta_le_quanta ?_
    rw [magnitude_infinity]
    exact isNaN_eq_false_iff.mp hy
  refine nearest_of_quanta ?_ ?_ ?_
  · rw [← hinfinite]
    exact isNaN_round _ _ _
  · intro y hy
    have h := hle y hy
    rw [abs_of_nonpos (by linarith), abs_of_nonpos (by linarith)]
    linarith
  · intro y hy htie hne
    have h := hle y hy
    rw [abs_of_nonpos (by linarith), abs_of_nonpos (by linarith)] at htie
    have heq : (y.quanta : ℚ) = (infinity negative).quanta := by linarith
    exact absurd (by exact_mod_cast heq) hne

/-- **Rounding is to the nearest number**, ties to even. -/
theorem nearest_round (negative : Bool) (a : ℕ) (hd : 0 < d) :
    Nearest ((a : ℚ) / d / unit) (round negative a d) := by
  rcases Nat.lt_or_ge 2045 (unitExponent a d) with hgt | hle
  · exact nearest_round_of_gt negative hd hgt
  · exact nearest_round_of_le negative hd hle

/-! ## One nearest number -/

/-- Being nearest is a matter of the magnitude. -/
theorem Nearest.of_magnitude (h : Nearest q x) (heq : y.magnitude = x.magnitude) : Nearest q y := by
  have hsize : y.size = x.size := by rw [size, size, quanta_eq_of_magnitude heq]
  refine ⟨?_, ?_, ?_⟩
  · rw [isNaN_eq_false_iff, heq]
    exact isNaN_eq_false_iff.mp h.isNaN
  · rw [hsize]
    exact h.le
  · rw [hsize, even_fraction_iff, heq, ← even_fraction_iff]
    exact h.even

/-- Every number is the nearest one to its own size. -/
theorem nearest_self (hx : x.isNaN = false) : Nearest x.size x := by
  refine ⟨hx, ?_, ?_⟩
  · intro y _
    rw [sub_self, abs_zero]
    exact abs_nonneg _
  · intro y _ htie hne
    rw [sub_self, abs_zero, abs_eq_zero, sub_eq_zero] at htie
    exact absurd htie hne

/-- Two nearest numbers would both be even, and then a third one would be nearer. -/
theorem Nearest.not_lt (hx : Nearest q x) (hy : Nearest q y) : ¬x.magnitude < y.magnitude := by
  intro hlt
  have hsize := size_lt_size hlt
  have htie : |x.size - q| = |y.size - q| := le_antisymm (hx.le y hy.isNaN) (hy.le x hx.isNaN)
  have hmiddle : q - x.size = y.size - q := by
    rcases abs_eq_abs.mp htie with h | h
    · linarith
    · linarith
  have hxeven := (even_fraction_iff x).mp (hx.even y hy.isNaN htie.symm hsize.ne')
  have hyeven := (even_fraction_iff y).mp (hy.even x hx.isNaN htie hsize.ne)
  -- The next word after the smaller one is odd, so it is not yet the larger one.
  have hyle := isNaN_eq_false_iff.mp hy.isNaN
  have hword : (ofMagnitude false (x.magnitude + 1)).magnitude = x.magnitude + 1 :=
    magnitude_ofMagnitude false (by have := infinityWord_lt_signBit; omega)
  have hnext : x.magnitude + 1 < y.magnitude := by
    rw [Nat.even_iff] at hxeven hyeven
    omega
  have hbelow := size_lt_size (y := y) (hword.trans_lt hnext)
  have habove := size_lt_size (x := x) (y := ofMagnitude false (x.magnitude + 1)) (by omega)
  have hcloser : |(ofMagnitude false (x.magnitude + 1)).size - q| < |y.size - q| := by
    rw [abs_of_pos (by linarith : 0 < y.size - q), abs_lt]
    constructor <;> linarith
  refine absurd (hy.le _ ?_) (not_le.mpr hcloser)
  rw [isNaN_eq_false_iff, hword]
  omega

/-- There is one nearest magnitude. -/
theorem Nearest.unique (hx : Nearest q x) (hy : Nearest q y) : x.magnitude = y.magnitude := by
  have hxy := hx.not_lt hy
  have hyx := hy.not_lt hx
  omega

theorem unit_rat : (unit : ℚ) = 2 ^ (1074 : ℤ) := by
  rw [unit_eq, Nat.cast_pow, Nat.cast_ofNat]
  exact (zpow_natCast 2 1074).symm

theorem size_infinity (negative : Bool) : (infinity negative).size = 2 ^ (1024 : ℤ) := by
  have hpow : ∀ n : ℕ, (((2 ^ n : ℕ) : ℚ)) = 2 ^ (n : ℤ) := fun n => by
    rw [Nat.cast_pow, Nat.cast_ofNat, zpow_natCast]
  rw [size, quanta_infinity, unit_rat, binade_eq, Nat.cast_mul, hpow, hpow,
    ← zpow_add₀ two_ne_zero, ← zpow_sub₀ two_ne_zero]
  rfl

theorem isNaN_infinity (negative : Bool) : (infinity negative).isNaN = false := by
  rw [isNaN_eq_false_iff, magnitude_infinity]

theorem isFinite_of_size_lt (hx : x.isNaN = false) (h : x.size < 2 ^ (1024 : ℤ)) :
    x.isFinite = true := by
  rw [isFinite_iff]
  refine lt_of_le_of_ne (isNaN_eq_false_iff.mp hx) fun heq => ?_
  have hsize : x.size = (infinity false).size := by
    rw [size, size, quanta_eq_of_magnitude (heq.trans (magnitude_infinity false).symm)]
  rw [hsize, size_infinity] at h
  exact lt_irrefl _ h

theorem size_le_infinity (hx : x.isNaN = false) : x.size ≤ 2 ^ (1024 : ℤ) := by
  rw [← size_infinity false, size, size]
  refine div_le_div_of_nonneg_right ?_ unit_pos_rat.le
  rw [Nat.cast_le]
  refine quanta_le_quanta ?_
  rw [magnitude_infinity]
  exact isNaN_eq_false_iff.mp hx

/-- From `2 ^ 1024` on an infinity is nearest. -/
theorem nearest_infinity (negative : Bool) (hq : 2 ^ (1024 : ℤ) ≤ q) :
    Nearest q (infinity negative) := by
  refine ⟨isNaN_infinity negative, ?_, ?_⟩
  · intro y hy
    have hle := size_le_infinity hy
    rw [size_infinity, abs_of_nonpos (by linarith), abs_of_nonpos (by linarith)]
    linarith
  · intro y hy htie hne
    have hle := size_le_infinity hy
    rw [size_infinity] at htie hne
    rw [abs_of_nonpos (by linarith), abs_of_nonpos (by linarith)] at htie
    exact absurd (by linarith) hne

theorem magnitude_zero (negative : Bool) : (zero negative).magnitude = 0 :=
  magnitude_ofMagnitude negative (by decide)

/-- The numbers with a magnitude of zero have no quanta, and all others have at least one. -/
theorem size_eq_zero_or (x : Binary64) : x.size = 0 ∨ 2 ^ (-1074 : ℤ) ≤ x.size := by
  unfold size
  rcases Nat.eq_zero_or_pos x.quanta with hzero | hpos
  · left
    rw [hzero, Nat.cast_zero, zero_div]
  · right
    rw [le_div_iff₀ unit_pos_rat, unit_rat, ← zpow_add₀ two_ne_zero]
    have hone : (1 : ℚ) ≤ x.quanta := by exact_mod_cast hpos
    simpa using hone

/-- Up to `2 ^ -1075`, half a quantum, a zero is nearest. -/
theorem nearest_zero (negative : Bool) (hpos : 0 ≤ q) (hq : q ≤ 2 ^ (-1075 : ℤ)) :
    Nearest q (zero negative) := by
  have hsize := size_eq_zero (magnitude_zero negative)
  have hhalf : (2 : ℚ) ^ (-1074 : ℤ) = 2 * 2 ^ (-1075 : ℤ) := by
    rw [← zpow_one_add₀ two_ne_zero]
    norm_num
  refine ⟨?_, ?_, ?_⟩
  · rw [isNaN_eq_false_iff, magnitude_zero]
    exact Nat.zero_le _
  · intro y _
    rw [hsize, zero_sub, abs_neg, abs_of_nonneg hpos]
    rcases size_eq_zero_or y with hy | hy
    · rw [hy, zero_sub, abs_neg, abs_of_nonneg hpos]
    · rw [abs_of_nonneg (by linarith)]
      linarith
  · intro _ _ _ _
    rw [even_fraction_iff, magnitude_zero]
    exact Even.zero

/-! ## Normal numbers -/

theorem log_ratio (hd : 0 < d) (hnormal : binade ≤ a / d) :
    Int.log 2 ((a : ℚ) / d) = unitExponent a d + 52 := by
  have hdq : (0 : ℚ) < d := by exact_mod_cast hd
  have hpos : 0 < binade := by decide
  have hone : (1 : ℚ) ≤ (a : ℚ) / d := by
    rw [le_div_iff₀ hdq, one_mul, Nat.cast_le]
    exact (Nat.one_le_div_iff hd).mp (hpos.trans_le hnormal)
  have hlog : 52 ≤ (a / d).log2 := by
    rw [Nat.le_log2 (by omega), ← binade_eq]
    exact hnormal
  rw [Int.log_of_one_le_right 2 hone, Nat.floor_div_eq_div, ← Nat.log2_eq_log_two]
  unfold unitExponent
  omega

/-- A ratio of at least `2 ^ 52` quanta is rounded to 53 significant bits. -/
theorem toPrecision_ratio (hd : 0 < d) (hnormal : binade ≤ a / d) :
    toPrecision 53 ((a : ℚ) / d)
      = (nearest a (d <<< unitExponent a d) * 2 ^ unitExponent a d : ℕ) := by
  have hplace : lastPlace 53 ((a : ℚ) / d) = 2 ^ unitExponent a d := by
    rw [lastPlace, log_ratio hd hnormal, ← zpow_natCast]
    congr 1
    push_cast
    ring
  have hround := nearest_significand (a := a) (k := unitExponent a d) hd
  rw [toPrecision, hplace, ← hround]
  push_cast
  rfl

theorem toPrecision_div_unit (hq : 0 ≤ q) :
    toPrecision 53 (q / unit) = toPrecision 53 q / unit := by
  rw [unit_rat, div_eq_mul_inv, div_eq_mul_inv _ ((2 : ℚ) ^ (1074 : ℤ)), ← zpow_neg,
    toPrecision_mul_zpow 53 hq]

/-- A normal number in range has the 53 significant bits of what was rounded. -/
theorem size_round (negative : Bool) (hd : 0 < d) (hnormal : binade ≤ a / d)
    (hk : unitExponent a d ≤ 2045) :
    (round negative a d).size = toPrecision 53 ((a : ℚ) / d / unit) := by
  rw [toPrecision_div_unit (by positivity), toPrecision_ratio hd hnormal, size,
    (quanta_round (a := a) negative hd hk).1]

/-- Rounding to a double is rounding to 53 significant bits and then rounding that, as long as the
number is normal: what has 53 bits is a double, or lies past the largest one. -/
theorem nearest_toPrecision_round (negative : Bool) (hd : 0 < d) (hnormal : binade ≤ a / d) :
    Nearest (toPrecision 53 ((a : ℚ) / d / unit)) (round negative a d) := by
  rcases Nat.lt_or_ge 2045 (unitExponent a d) with hgt | hle
  · obtain ⟨hinfinite, -⟩ := round_overflow (a := a) negative hd hgt
    obtain ⟨-, hbits⟩ := significand_bounds (a := a) hd
    have hbinade := hbits.resolve_left (by omega)
    have hexponent : 2046 ≤ unitExponent a d := hgt
    rw [hinfinite]
    refine nearest_infinity negative ?_
    rw [toPrecision_div_unit (by positivity), toPrecision_ratio hd hnormal,
      ← size_infinity negative, size, quanta_infinity]
    refine div_le_div_of_nonneg_right ?_ unit_pos_rat.le
    generalize 2046 = l at hexponent ⊢
    rw [Nat.cast_le]
    exact Nat.mul_le_mul hbinade (Nat.pow_le_pow_right two_pos hexponent)
  · rw [← size_round negative hd hnormal hle]
    exact nearest_self (isNaN_round _ _ _)

/-- Above `2 ^ -1022` the number nearest to 53 significant bits is nearest to all of them. -/
theorem Nearest.of_toPrecision (hq : 2 ^ (-1022 : ℤ) ≤ q) (h : Nearest (toPrecision 53 q) x) :
    Nearest q x := by
  have hpos : 0 < q := (zpow_pos two_pos _).trans_le hq
  -- The number is a ratio of quanta.
  have hratio : ((q.num.toNat * unit : ℕ) : ℚ) / q.den = q * unit := by
    have hnum : ((q.num.toNat : ℤ) : ℚ) = q.num := by
      rw [Int.toNat_of_nonneg (Rat.num_nonneg.mpr hpos.le)]
    rw [Nat.cast_mul, mul_div_right_comm, ← Int.cast_natCast q.num.toNat, hnum, Rat.num_div_den]
  have hquotient : ((q.num.toNat * unit : ℕ) : ℚ) / q.den / unit = q := by
    rw [hratio, mul_div_cancel_right₀ _ unit_pos_rat.ne']
  have hnormal : binade ≤ q.num.toNat * unit / q.den := by
    rw [Nat.le_div_iff_mul_le q.den_pos]
    have hden : (0 : ℚ) < q.den := by exact_mod_cast q.den_pos
    have hbinade : (binade : ℚ) ≤ q * unit := by
      have hpow : (binade : ℚ) = 2 ^ (-1022 : ℤ) * unit := by
        rw [unit_rat, ← zpow_add₀ two_ne_zero, binade_eq]
        norm_num
      rw [hpow]
      exact mul_le_mul_of_nonneg_right hq unit_pos_rat.le
    rw [← hratio, le_div_iff₀ hden] at hbinade
    exact_mod_cast hbinade
  have hround := nearest_round false (q.num.toNat * unit) q.den_pos
  have hprecise := nearest_toPrecision_round false q.den_pos hnormal
  rw [hquotient] at hround hprecise
  exact hround.of_magnitude (h.unique hprecise)

/-! ## Products -/

/-- The product of finite numbers is nearest to the product of their sizes. -/
theorem nearest_product (hx : x.isFinite = true) (hy : y.isFinite = true) :
    Nearest (x.size * y.size) (mul x y) := by
  have hproduct : mul x y
      = round (x.isNegative != y.isNegative) (x.quanta * y.quanta) unit := by
    unfold mul
    simp only [isNaN_of_isFinite hx, isNaN_of_isFinite hy, isInfinite_of_isFinite hx,
      isInfinite_of_isFinite hy, Bool.or_self, Bool.false_eq_true, if_false]
  have hsize : x.size * y.size = ((x.quanta * y.quanta : ℕ) : ℚ) / unit / unit := by
    rw [size, size, div_mul_div_comm, ← div_div, Nat.cast_mul]
  rw [hproduct, hsize]
  exact nearest_round _ _ unit_pos

end FrameCode.Binary64
