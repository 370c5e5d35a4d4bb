import FrameCode.Machine.Operator
import FrameCode.Proofs.Checks
import FrameCode.Proofs.Scaling

/-!
# Conversions between integers and floating-point numbers

A finite floating-point number has an exact value (`value`), and the integer made of it is this
value without its digits after the point (`towardZero`), if that is a word. Whether it is one is
decided on floating-point numbers alone: the integer part of a number is a number again (`integral`,
which clears the bits after the point), and so are the bounds `-2 ^ 63` and `2 ^ 63` that it is
compared with (`isWord_iff_compared`). The upper bound is no word, so an integer part has to be
less.

The number made of an integer has the value of the integer rounded to 53 significant bits
(`value_ofInt`). This is an integer as well (`exists_precise`), and a word unless it is one of the
last integers before `2 ^ 63` that was rounded up to it (`precise_eq_limit_iff`). So on the way to a
number and back an integer is rounded, and nothing else happens to it; up to `2 ^ 53` it has no bits
to lose.
-/

namespace FrameCode.Binary64

variable {x y : Binary64} {q : ℚ} {n : ℕ} {a : ℤ}

/-! ## Exact values -/

/-- The exact value of a finite number: a significand with 52 binary digits after the point times a
power of two. Numbers with an exponent field of zero have no leading one, and the exponent of the
least number that has it. -/
def value (x : Binary64) : ℚ :=
  (if x.isNegative then -1 else 1) *
    if x.exponentField = 0 then (x.fraction : ℚ) / 2 ^ 52 * 2 ^ (-1022 : ℤ)
    else (1 + (x.fraction : ℚ) / 2 ^ 52) * 2 ^ ((x.exponentField : ℤ) - 1023)

/-- The value of a number is its size with its sign. -/
theorem value_eq_size (x : Binary64) : x.value = (if x.isNegative then -1 else 1) * x.size := by
  -- The last of the 52 digits after the point stands for the quantum, times the rest of the power.
  have hlast : ∀ e : ℤ, (2 : ℚ) ^ (e + 52) = 2 ^ 52 * 2 ^ e := by
    intro e
    rw [zpow_add₀ two_ne_zero, mul_comm]
    norm_cast
  unfold value size quanta
  congr 1
  by_cases hsubnormal : x.exponentField = 0
  · have hsum : (-1022 : ℤ) = -1074 + 52 := rfl
    have hsize : (x.fraction : ℚ) / unit = x.fraction * 2 ^ (-1074 : ℤ) := by
      rw [unit_rat, zpow_neg, div_eq_mul_inv]
    rw [if_pos hsubnormal, if_pos hsubnormal, hsize, hsum, hlast]
    ring
  · have hsum : (x.exponentField : ℤ) - 1023 = x.exponentField - 1075 + 52 := by ring
    have hexponent : ((x.exponentField - 1 : ℕ) : ℤ) - 1074 = x.exponentField - 1075 := by omega
    rw [if_neg hsubnormal, if_neg hsubnormal, Nat.shiftLeft_eq, size_significand, binade_eq,
      hexponent, hsum, hlast]
    push_cast
    ring

theorem value_eq (x : Binary64) : x.value = (x.signedQuanta : ℚ) / unit := by
  rw [value_eq_size, size, signedQuanta]
  split
  · push_cast
    ring
  · push_cast
    ring

/-! ## Digits after the point -/

/-- A number without its digits after the point. -/
def towardZero (q : ℚ) : ℤ :=
  if 0 ≤ q then ⌊q⌋ else ⌈q⌉

theorem towardZero_intCast (a : ℤ) : towardZero a = a := by
  unfold towardZero
  split
  · exact Int.floor_intCast a
  · exact Int.ceil_intCast a

/-- Division of integers toward zero cuts off the digits of the quotient. -/
theorem towardZero_div (a : ℤ) (n : ℕ) : towardZero ((a : ℚ) / n) = a.tdiv n := by
  unfold towardZero
  rcases le_or_gt 0 a with ha | ha
  · rw [if_pos (div_nonneg (by exact_mod_cast ha) n.cast_nonneg), Rat.floor_intCast_div_natCast,
      Int.tdiv_eq_ediv_of_nonneg ha]
  · rcases Nat.eq_zero_or_pos n with rfl | hn
    · simp
    · have hneg : (a : ℚ) / n < 0 :=
        div_neg_of_neg_of_pos (by exact_mod_cast ha) (by exact_mod_cast hn)
      -- The quotient of the opposite dividend is rounded down, so this one is rounded up.
      have hopposite : a.tdiv n = -((-a) / n) := by
        rw [← Int.tdiv_eq_ediv_of_nonneg (by omega), Int.neg_tdiv, neg_neg]
      rw [if_neg hneg.not_ge, Rat.ceil_intCast_div_natCast, hopposite]

theorem toInteger_eq (x : Binary64) : x.toInteger = towardZero x.value := by
  rw [toInteger, value_eq, towardZero_div]

/-! ## The integer part as a number -/

theorem integralWord_eq (x : Binary64) :
    x.integralWord = if x.exponentField < 1023 then 0
      else x.magnitude - x.magnitude % 2 ^ (1075 - x.exponentField) := by
  rw [integralWord, Nat.one_shiftLeft]

theorem integralWord_le (x : Binary64) : x.integralWord ≤ x.magnitude := by
  unfold integralWord
  split
  · exact Nat.zero_le _
  · exact Nat.sub_le _ _

theorem magnitude_integral (x : Binary64) : x.integral.magnitude = x.integralWord :=
  magnitude_ofMagnitude _ (x.integralWord_le.trans_lt x.magnitude_lt)

theorem isNegative_integral (x : Binary64) : x.integral.isNegative = x.isNegative :=
  isNegative_ofMagnitude _ (x.integralWord_le.trans_lt x.magnitude_lt)

theorem isFinite_integral (x : Binary64) : x.integral.isFinite = x.isFinite := by
  rw [Bool.eq_iff_iff, isFinite_iff, isFinite_iff, magnitude_integral]
  constructor
  · intro hfinite
    by_contra hinfinite
    -- The word of an infinity or of a NaN is kept as it is.
    have hfield : 1075 ≤ x.exponentField := by
      unfold exponentField infinityWord binade at *
      omega
    rw [integralWord_eq, if_neg (by omega), Nat.sub_eq_zero_of_le hfield, pow_zero,
      Nat.mod_one] at hfinite
    exact hinfinite hfinite
  · exact x.integralWord_le.trans_lt

/-- Clearing bits of a significand takes what they stand for off a scaled number. -/
theorem scaled_div_mul (m k j : ℕ) :
    m * 2 ^ k / 2 ^ j * 2 ^ j = (m - m % 2 ^ (j - k)) * 2 ^ k := by
  rcases Nat.le_total k j with hle | hle
  · have hpow : 2 ^ j = 2 ^ (j - k) * 2 ^ k := by rw [← pow_add, Nat.sub_add_cancel hle]
    rw [hpow, Nat.mul_div_mul_right _ _ (Nat.two_pow_pos k), ← mul_assoc,
      ← Nat.sub_eq_of_eq_add (Nat.div_add_mod' m (2 ^ (j - k))).symm]
  · have hpow : 2 ^ k = 2 ^ (k - j) * 2 ^ j := by rw [← pow_add, Nat.sub_add_cancel hle]
    rw [Nat.sub_eq_zero_of_le hle, pow_zero, Nat.mod_one, Nat.sub_zero, hpow, ← mul_assoc,
      Nat.mul_div_cancel _ (Nat.two_pow_pos j)]

/-- The last 52 bits of a word are bits of its significand, and the highest bit of that is not among
them. So clearing some of them leaves the exponent alone. -/
theorem clear_bits {m j : ℕ} (hj : j ≤ 52) (hm : binade ≤ m) (k : ℕ) :
    k * binade + m - (k * binade + m) % 2 ^ j = k * binade + (m - m % 2 ^ j) ∧
      binade ≤ m - m % 2 ^ j := by
  obtain ⟨c, hc⟩ : 2 ^ j ∣ binade := by
    rw [binade_eq]
    exact Nat.pow_dvd_pow 2 hj
  have hrest : (k * binade + m) % 2 ^ j = m % 2 ^ j := by
    rw [hc, mul_left_comm, Nat.mul_add_mod]
  have hquotient : c ≤ m / 2 ^ j := by
    rw [Nat.le_div_iff_mul_le (Nat.two_pow_pos j), mul_comm, ← hc]
    exact hm
  have hmul := Nat.mul_le_mul_left (2 ^ j) hquotient
  have hdivision := Nat.div_add_mod m (2 ^ j)
  rw [hrest]
  omega

/-- The integer part has the quanta of the whole units. -/
theorem quanta_integral (x : Binary64) : x.integral.quanta = x.quanta / unit * unit := by
  obtain ⟨m, k, hm, hnormal, hx⟩ := exists_significand x
  have hword := magnitude_integral x
  rw [quanta_of_magnitude hm.le hnormal hx, unit_eq, scaled_div_mul]
  by_cases hsmall : x.exponentField < 1023
  · -- Below one all bits of the significand are after the point.
    rw [integralWord_eq, if_pos hsmall] at hword
    have hk : k ≤ 1021 := by
      rw [exponentField, hx] at hsmall
      unfold binade at *
      omega
    have hbits : m < 2 ^ (1074 - k) := by
      refine hm.trans_le ?_
      rw [binade_eq, ← pow_succ']
      exact Nat.pow_le_pow_right two_pos (by omega)
    rw [quanta_of_magnitude (Nat.zero_le _) (.inl rfl) (hword.trans (Nat.zero_mul binade).symm),
      Nat.mod_eq_of_lt hbits, Nat.sub_self, Nat.zero_mul, Nat.zero_mul]
  · have hk : 1022 ≤ k := by
      rw [exponentField, hx] at hsmall
      unfold binade at *
      omega
    have hbinade : binade ≤ m := hnormal.resolve_left (by omega)
    have hcount : 1075 - x.exponentField = 1074 - k := by
      rw [exponentField, hx]
      unfold binade at *
      omega
    obtain ⟨hcleared, hkept⟩ := clear_bits (j := 1074 - k) (by omega) hbinade k
    rw [integralWord_eq, if_neg hsmall, hcount, hx, hcleared] at hword
    exact quanta_of_magnitude (by omega) (.inr hkept) hword

/-- The integer part has the value without its digits after the point. -/
theorem value_integral (x : Binary64) : x.integral.value = towardZero x.value := by
  have hsize : x.integral.size = (x.quanta / unit : ℕ) := by
    rw [size, quanta_integral, Nat.cast_mul, mul_div_cancel_right₀ _ unit_pos_rat.ne']
  rw [value_eq_size, hsize, isNegative_integral, value_eq, towardZero_div, signedQuanta]
  split
  · rw [Int.neg_tdiv, ← Int.ofNat_tdiv, Int.cast_neg, Int.cast_natCast, neg_one_mul]
  · rw [← Int.ofNat_tdiv, Int.cast_natCast, one_mul]

/-! ## Comparing values -/

theorem less_iff_value_lt (hx : x.isFinite = true) (hy : y.isFinite = true) :
    x.less y = true ↔ x.value < y.value := by
  have hrank : ∀ z : Binary64, z.isFinite = true → z.rank = z.signedQuanta := by
    intro z hz
    rw [rank, if_neg (by rw [isInfinite_of_isFinite hz]; decide)]
  rw [less, isNaN_of_isFinite hx, isNaN_of_isFinite hy, hrank x hx, hrank y hy, value_eq, value_eq,
    div_lt_div_iff_of_pos_right unit_pos_rat, Int.cast_lt]
  simp

theorem magnitude_neg (x : Binary64) : (neg x).magnitude = x.magnitude :=
  magnitude_ofMagnitude _ x.magnitude_lt

theorem isFinite_neg (x : Binary64) : (neg x).isFinite = x.isFinite := by
  rw [isFinite, magnitude_neg]
  rfl

theorem value_neg (x : Binary64) : (neg x).value = -x.value := by
  have hsign : (neg x).isNegative = !x.isNegative := isNegative_ofMagnitude _ x.magnitude_lt
  have hsize : (neg x).size = x.size := by
    rw [size, size, quanta_eq_of_magnitude (magnitude_neg x)]
  rw [value_eq_size, value_eq_size, hsign, hsize]
  cases x.isNegative with
  | true => simp
  | false => simp

/-! ## Integers as numbers -/

/-- Rounding leaves a multiple of its last place alone. -/
theorem toPrecision_of_multiple (h : q = a * lastPlace n q) : toPrecision n q = q := by
  have hratio : q / lastPlace n q = a := by
    rw [div_eq_iff (lastPlace_pos n q).ne']
    exact h
  have hround : roundEven (a : ℚ) = a := le_antisymm (roundEven_le le_rfl) (le_roundEven le_rfl)
  rw [toPrecision, hratio, hround]
  exact h.symm

theorem lastPlace_natCast (n : ℕ) : lastPlace 53 (n : ℚ) = 2 ^ ((Nat.log 2 n : ℤ) - 52) := by
  rw [lastPlace, Int.log_natCast]
  congr 1
  push_cast
  ring

/-- An integer of up to 53 bits has no bits to lose. -/
theorem toPrecision_natCast_of_lt (hn : n < 2 ^ 53) : toPrecision 53 (n : ℚ) = n := by
  have hlog : Nat.log 2 n ≤ 52 := by
    have hlt := Nat.log_lt_of_lt_pow' (b := 2) (by decide) hn
    omega
  apply toPrecision_of_multiple (a := (n * 2 ^ (52 - Nat.log 2 n) : ℕ))
  have hone : (2 : ℚ) ^ (52 - Nat.log 2 n) * 2 ^ ((Nat.log 2 n : ℤ) - 52) = 1 := by
    rw [← zpow_natCast, ← zpow_add₀ two_ne_zero, Nat.cast_sub hlog]
    simp
  rw [lastPlace_natCast, Int.cast_natCast, Nat.cast_mul, Nat.cast_pow, Nat.cast_ofNat, mul_assoc,
    hone, mul_one]

theorem toPrecision_natCast_of_le (hn : n ≤ 2 ^ 53) : toPrecision 53 (n : ℚ) = n := by
  rcases hn.eq_or_lt with rfl | hlt
  · -- The power of two has one significant bit.
    have hone : toPrecision 53 (1 : ℚ) = 1 := by
      exact_mod_cast toPrecision_natCast_of_lt (n := 1) (by decide)
    have hscaled := toPrecision_mul_zpow 53 (zero_le_one' ℚ) 53
    rw [hone, one_mul] at hscaled
    exact_mod_cast hscaled
  · exact toPrecision_natCast_of_lt hlt

/-- An integer rounded to 53 significant bits is an integer: a longer one ends above the point. -/
theorem exists_toPrecision_natCast (n : ℕ) : ∃ a : ℤ, toPrecision 53 (n : ℚ) = a := by
  by_cases hn : n < 2 ^ 53
  · exact ⟨n, toPrecision_natCast_of_lt hn⟩
  · have hlog : 53 ≤ Nat.log 2 n := Nat.le_log_of_pow_le one_lt_two (by omega)
    have hplace : lastPlace 53 (n : ℚ) = ((2 ^ (Nat.log 2 n - 52) : ℤ) : ℚ) := by
      rw [lastPlace_natCast, Int.cast_pow, Int.cast_ofNat, ← zpow_natCast, Nat.cast_sub (by omega)]
      rfl
    refine ⟨roundEven (n / lastPlace 53 n) * 2 ^ (Nat.log 2 n - 52), ?_⟩
    rw [toPrecision, Int.cast_mul, ← hplace]

/-- An integer rounded to 53 significant bits, ties to even. -/
def precise (a : ℤ) : ℚ :=
  (if a < 0 then -1 else 1) * toPrecision 53 a.natAbs

theorem natAbs_le_of_abs_le (h : |a| ≤ 2 ^ n) : a.natAbs ≤ 2 ^ n := by
  rw [Int.abs_eq_natAbs] at h
  exact_mod_cast h

theorem precise_of_le (h : |a| ≤ 2 ^ 53) : precise a = a := by
  rw [precise, toPrecision_natCast_of_le (natAbs_le_of_abs_le h), ← Int.cast_natCast]
  split
  · rw [Int.ofNat_natAbs_of_nonpos (by omega), Int.cast_neg, neg_one_mul, neg_neg]
  · rw [Int.natAbs_of_nonneg (by omega), one_mul]

theorem exists_precise (a : ℤ) : ∃ b : ℤ, precise a = b := by
  obtain ⟨b, hb⟩ := exists_toPrecision_natCast a.natAbs
  unfold precise
  rw [hb]
  split
  · exact ⟨-b, by rw [Int.cast_neg, neg_one_mul]⟩
  · exact ⟨b, one_mul _⟩

/-- Rounding does not lead past a power of two, whatever the sign. -/
theorem abs_precise_le (h : |a| ≤ 2 ^ n) : |precise a| ≤ 2 ^ n := by
  have hle : toPrecision 53 (a.natAbs : ℚ) ≤ 2 ^ (n : ℤ) := by
    refine toPrecision_le (by decide) (Nat.cast_nonneg _) ?_
    exact_mod_cast natAbs_le_of_abs_le h
  have hsign : |(if a < 0 then -1 else 1 : ℚ)| = 1 := by
    split
    · simp
    · simp
  rw [precise, abs_mul, hsign, one_mul,
    abs_of_nonneg (toPrecision_nonneg 53 (Nat.cast_nonneg _)), ← zpow_natCast]
  exact hle

/-- From `2 ^ 62` to `2 ^ 63` the last of 53 bits stands for `2 ^ 10`. -/
theorem precise_of_sixtyThree (hlow : 2 ^ 62 ≤ a) (hhigh : a < 2 ^ 63) :
    precise a = roundEven ((a : ℚ) / 2 ^ 10) * 2 ^ 10 := by
  have hcast : ((a.natAbs : ℕ) : ℚ) = a := by
    rw [← Int.cast_natCast, Int.natAbs_of_nonneg (by omega)]
  have hlog : Nat.log 2 a.natAbs = 62 :=
    Nat.log_eq_of_pow_le_of_lt_pow (by omega) (by omega)
  have hplace : lastPlace 53 (a : ℚ) = 2 ^ 10 := by
    rw [← hcast, lastPlace_natCast, hlog]
    norm_num
  rw [precise, if_neg (by omega), one_mul, hcast, toPrecision, hplace]

theorem precise_nonpos (h : a < 0) : precise a ≤ 0 := by
  rw [precise, if_pos h, neg_one_mul, neg_nonpos]
  exact toPrecision_nonneg 53 (Nat.cast_nonneg _)

/-- The integers that are rounded up to `2 ^ 63` are the last ones before it, from halfway on: there
the tie goes up, to the even side. -/
theorem precise_eq_limit_iff (h : a < 2 ^ 63) : precise a = 2 ^ 63 ↔ 2 ^ 63 - 512 ≤ a := by
  constructor
  · intro hlimit
    by_contra hbelow
    rcases Int.lt_or_le a 0 with hneg | hpos
    · have hle := precise_nonpos hneg
      rw [hlimit] at hle
      norm_num at hle
    · rcases Int.lt_or_le a (2 ^ 62) with hsmall | hlarge
      · have hle := abs_precise_le (a := a) (n := 62) (by rw [abs_of_nonneg hpos]; exact hsmall.le)
        rw [hlimit] at hle
        norm_num at hle
      · -- Less than halfway in the last unit, so rounding stays below the power of two.
        have hnear := (abs_le.mp (abs_roundEven_sub_le ((a : ℚ) / 2 ^ 10)).1).2
        have hhalf : (a : ℚ) < 2 ^ 63 - 512 := by exact_mod_cast not_le.mp hbelow
        rw [precise_of_sixtyThree hlarge h] at hlimit
        linarith
  · intro hlow
    have hlow' : (2 : ℚ) ^ 63 - 512 ≤ a := by exact_mod_cast hlow
    have hfloor : ⌊(a : ℚ) / 2 ^ 10⌋ = 2 ^ 53 - 1 := by
      have hdiv : ⌊(a : ℚ) / ((2 ^ 10 : ℕ) : ℚ)⌋ = a / 2 ^ 10 := Rat.floor_intCast_div_natCast a _
      rw [Nat.cast_pow, Nat.cast_ofNat] at hdiv
      rw [hdiv]
      omega
    have hround : roundEven ((a : ℚ) / 2 ^ 10) = 2 ^ 53 := by
      unfold roundEven
      rw [hfloor]
      split
      · rename_i hless
        push_cast at hless
        linarith
      · split
        · omega
        · omega
    rw [precise_of_sixtyThree (by omega) h, hround]
    norm_num

/-- The number made of an integer of up to 64 bits has the value of this integer, rounded. -/
theorem value_ofInt (h : |a| ≤ 2 ^ 63) :
    (ofInt a).isFinite = true ∧ (ofInt a).value = precise a := by
  have hbits := natAbs_le_of_abs_le h
  have hsize := size_ofNat (n := a.natAbs) (decide (a < 0)) (by omega)
  constructor
  · refine isFinite_of_size_lt (isNaN_round _ _ _) ?_
    have hle : toPrecision 53 (a.natAbs : ℚ) ≤ 2 ^ (63 : ℤ) :=
      toPrecision_le (by decide) (Nat.cast_nonneg _) (by exact_mod_cast hbits)
    rw [ofInt, hsize]
    exact hle.trans_lt (zpow_lt_zpow_right₀ one_lt_two (by decide))
  · have hsign : (ofInt a).isNegative = decide (a < 0) := isNegative_round _ _ _
    rw [value_eq_size, hsign, ofInt, hsize, precise]
    simp only [decide_eq_true_eq]

end FrameCode.Binary64

namespace FrameCode.Operator

open FrameCode.Binary64 FrameCode.Checks

variable {x : Binary64} {n : Int64}

/-! ## The conversions -/

/-- The integers that are words. -/
def IsWord (a : ℤ) : Prop :=
  -2 ^ 63 ≤ a ∧ a ≤ 2 ^ 63 - 1

instance (a : ℤ) : Decidable (IsWord a) :=
  inferInstanceAs (Decidable (_ ∧ _))

theorem toInt_ofInt_of_isWord {a : ℤ} (h : IsWord a) : (Int64.ofInt a).toInt = a :=
  Int64.toInt_ofInt_of_le (by have := h.1; omega) (by have := h.2; omega)

/-- The comparisons that the conversion makes decide whether the integer part is a word. -/
theorem isWord_iff_compared (hfinite : x.isFinite = true) :
    IsWord (towardZero x.value) ↔ ¬x.integral.less (neg (powerOfTwo 63)) = true ∧
      x.integral.less (powerOfTwo 63) = true := by
  obtain ⟨hpower, hsign, hsize⟩ := powerOfTwo_eq (f := 63) (by decide) (by decide)
  have hvalue : (powerOfTwo 63).value = 2 ^ 63 := by
    rw [value_eq_size, hsign, hsize]
    norm_num
  have hintegral : x.integral.isFinite = true := (isFinite_integral x).trans hfinite
  have hopposite : (neg (powerOfTwo 63)).isFinite = true := (isFinite_neg _).trans hpower
  have hlow : -(2 : ℚ) ^ 63 ≤ towardZero x.value ↔ -2 ^ 63 ≤ towardZero x.value := by
    exact_mod_cast Iff.rfl
  have hhigh : (towardZero x.value : ℚ) < 2 ^ 63 ↔ towardZero x.value < 2 ^ 63 := by
    exact_mod_cast Iff.rfl
  rw [less_iff_value_lt hintegral hopposite, less_iff_value_lt hintegral hpower, value_integral,
    value_neg, hvalue, not_lt, hlow, hhigh, IsWord]
  omega

/-- The conversion to an integer, with the value of the integer part. -/
theorem toInt_compared (x : Binary64) :
    toInt (.float x) =
      if x.integral.isFinite = true ∧ ¬x.integral.less (neg (powerOfTwo 63)) = true ∧
          x.integral.less (powerOfTwo 63) = true then
        .ok (.int (Int64.ofInt (towardZero x.integral.value)))
      else .error (.floatOutOfRange x) := by
  unfold toInt
  simp only [toInteger_eq, Bool.and_eq_true, Bool.not_eq_true', Bool.not_eq_true, and_assoc]

/-- The conversion to an integer: the value without its digits after the point, if it is a word. -/
theorem toInt_float (x : Binary64) :
    toInt (.float x) =
      if x.isFinite = true ∧ IsWord (towardZero x.value) then
        .ok (.int (Int64.ofInt (towardZero x.value)))
      else .error (.floatOutOfRange x) := by
  rw [toInt_compared, value_integral, towardZero_intCast, isFinite_integral]
  by_cases hfinite : x.isFinite = true
  · simp only [isWord_iff_compared hfinite]
  · simp [hfinite]

theorem isWord_toInt (n : Int64) : IsWord n.toInt := by
  have hlow := n.le_toInt
  have hhigh := n.toInt_lt
  unfold IsWord
  omega

theorem abs_toInt_le (n : Int64) : |n.toInt| ≤ 2 ^ 63 := by
  obtain ⟨hlow, hhigh⟩ := isWord_toInt n
  rw [abs_le]
  omega

/-- The way from an integer to a number and back: the integer that comes back is the rounded one, if
it is a word. -/
theorem toFloat_toInt {a : ℤ} (ha : precise n.toInt = a) :
    (toFloat (.int n) >>= toInt) =
      if IsWord a then .ok (.int (Int64.ofInt a))
      else .error (.floatOutOfRange (Binary64.ofInt n.toInt)) := by
  obtain ⟨hfinite, hvalue⟩ := value_ofInt (abs_toInt_le n)
  rw [toFloat, ok_bind, toInt_float, hvalue, ha, towardZero_intCast]
  simp only [hfinite, true_and]

/-- The last integers are rounded up to a number that has no integer. -/
theorem toFloat_toInt_of_le (h : 2 ^ 63 - 512 ≤ n.toInt) :
    precise n.toInt = 2 ^ 63 ∧
      (toFloat (.int n) >>= toInt) = .error (.floatOutOfRange (Binary64.ofInt n.toInt)) := by
  have hlimit := (precise_eq_limit_iff n.toInt_lt).mpr h
  refine ⟨hlimit, ?_⟩
  rw [toFloat_toInt (a := 2 ^ 63) (by exact_mod_cast hlimit), if_neg]
  unfold IsWord
  omega

/-- All other integers come back, rounded. -/
theorem toFloat_toInt_of_lt (h : n.toInt < 2 ^ 63 - 512) :
    ∃ m : Int64, (toFloat (.int n) >>= toInt) = .ok (.int m) ∧
      (m.toInt : ℚ) = precise n.toInt := by
  obtain ⟨a, ha⟩ := exists_precise n.toInt
  have hlimit : a ≠ 2 ^ 63 := by
    rintro rfl
    have hlast := (precise_eq_limit_iff n.toInt_lt).mp (by exact_mod_cast ha)
    omega
  have hrange : |a| ≤ 2 ^ 63 := by
    have hle := abs_precise_le (abs_toInt_le n)
    rw [ha] at hle
    exact_mod_cast hle
  have hword : IsWord a := by
    rw [abs_le] at hrange
    unfold IsWord
    omega
  refine ⟨Int64.ofInt a, ?_, ?_⟩
  · rw [toFloat_toInt ha, if_pos hword]
  · rw [toInt_ofInt_of_isWord hword, ha]

theorem exists_toInt_iff (x : Binary64) :
    (∃ v, toInt (.float x) = .ok v) ↔ x.isFinite = true ∧ IsWord (towardZero x.value) := by
  rw [toInt_float]
  by_cases h : x.isFinite = true ∧ IsWord (towardZero x.value)
  · simp [h]
  · simp [h]

theorem toInt_eq_ok {v : Value} (h : toInt (.float x) = .ok v) :
    ∃ n : Int64, v = .int n ∧ n.toInt = towardZero x.value := by
  rw [toInt_float] at h
  split at h
  · rename_i hword
    cases h
    exact ⟨_, rfl, toInt_ofInt_of_isWord hword.2⟩
  · cases h

theorem toInt_eq_error {e : Cause} (h : toInt (.float x) = .error e) : e = .floatOutOfRange x := by
  rw [toInt_float] at h
  split at h
  · cases h
  · cases h
    rfl

/-- **Conversions.** An integer can be made of a floating-point number exactly if the number is
finite and its value without the digits after the point is a word; then it is this word, and
otherwise the number is reported as out of range. To compare the integer part with `-2 ^ 63` and
`2 ^ 63` as floating-point numbers decides the same. An integer of at most `2 ^ 53` in size comes
back from the floating-point number that is made of it. Any other comes back rounded to 53
significant bits, except for the last 512 integers: they are rounded up to `2 ^ 63`, which is out of
range. -/
theorem conversions_exact :
    (∀ x : Binary64,
      ((∃ v, toInt (.float x) = .ok v) ↔ x.isFinite = true ∧ IsWord (towardZero x.value)) ∧
      (∀ v, toInt (.float x) = .ok v → ∃ n : Int64, v = .int n ∧ n.toInt = towardZero x.value) ∧
      (∀ e, toInt (.float x) = .error e → e = .floatOutOfRange x) ∧
      toInt (.float x) =
        if x.integral.isFinite = true ∧ ¬x.integral.less (neg (powerOfTwo 63)) = true ∧
            x.integral.less (powerOfTwo 63) = true then
          .ok (.int (Int64.ofInt (towardZero x.integral.value)))
        else .error (.floatOutOfRange x)) ∧
    (∀ n : Int64, |n.toInt| ≤ 2 ^ 53 → (toFloat (.int n) >>= toInt) = .ok (.int n)) ∧
    ∀ n : Int64,
      (2 ^ 63 - 512 ≤ n.toInt ∧ precise n.toInt = 2 ^ 63 ∧
        (toFloat (.int n) >>= toInt) = .error (.floatOutOfRange (Binary64.ofInt n.toInt))) ∨
      (n.toInt < 2 ^ 63 - 512 ∧
        ∃ m : Int64, (toFloat (.int n) >>= toInt) = .ok (.int m) ∧
          (m.toInt : ℚ) = precise n.toInt) := by
  refine ⟨?_, ?_, ?_⟩
  · intro x
    exact ⟨exists_toInt_iff x, fun v => toInt_eq_ok, fun e => toInt_eq_error, toInt_compared x⟩
  · intro n hn
    rw [toFloat_toInt (precise_of_le hn), if_pos (isWord_toInt n), Int64.ofInt_toInt]
  · intro n
    by_cases hlast : 2 ^ 63 - 512 ≤ n.toInt
    · exact .inl ⟨hlast, toFloat_toInt_of_le hlast⟩
    · have hlt : n.toInt < 2 ^ 63 - 512 := by omega
      exact .inr ⟨hlt, toFloat_toInt_of_lt hlt⟩

/-- `-2 ^ 53` comes back, and the digits of `-0.75` are all after the point. -/
theorem conversions_exact_border :
    |(-9007199254740992 : Int64).toInt| ≤ 2 ^ 53 ∧
      (toFloat (.int (-9007199254740992)) >>= toInt) = .ok (.int (-9007199254740992)) ∧
      toInt (.float ⟨0xBFE8000000000000⟩) = .ok (.int 0) ∧
      towardZero (value ⟨0xBFE8000000000000⟩) = 0 := by
  have hbits : |(-9007199254740992 : Int64).toInt| ≤ 2 ^ 53 := by decide
  have hfraction : toInt (.float ⟨0xBFE8000000000000⟩) = .ok (.int 0) := by decide +kernel
  obtain ⟨hexact, hback, -⟩ := conversions_exact
  obtain ⟨n, hn, hvalue⟩ := (hexact _).2.1 _ hfraction
  cases hn
  exact ⟨hbits, hback _ hbits, hfraction, hvalue.symm⟩

end FrameCode.Operator
