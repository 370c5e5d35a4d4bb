import FrameCode.Binary64.Hexadecimal
import Mathlib.Tactic.Ring

/-!
# Exact results of rounding

A finite double is `m * 2 ^ k` quanta, where the significand `m` has at most 53 bits and `k` is the
exponent of its last place. `Canonical m k` picks one such pair for each size: either `m` has all
its 53 bits, or `k` is zero. The magnitude word is then `k * 2 ^ 52 + m`, and rounding the exact
size gives this word back (`roundToWord_canonical`), since nothing is left to round.

So every product whose exact value has a significand of 53 bits and an exponent in range is exact,
and scaling by a power of two in two steps ends where one step would (`Counts.scale`): the first
step stays far from the subnormal numbers, and the last one comes to a number that is there.
-/

namespace FrameCode.Binary64

variable {x y : Binary64} {m k d n : Nat}

/-! ## Words -/

theorem magnitude_lt (x : Binary64) : x.magnitude < signBit := by
  unfold magnitude
  exact Nat.mod_lt _ (by decide)

theorem magnitude_ofMagnitude (negative : Bool) (h : n < signBit) :
    (ofMagnitude negative n).magnitude = n := by
  unfold magnitude ofMagnitude signBit at *
  cases negative with
  | true =>
    simp only [if_true, UInt64.toNat_ofNat']
    omega
  | false =>
    simp only [Bool.false_eq_true, if_false, UInt64.toNat_ofNat']
    omega

theorem isNegative_ofMagnitude (negative : Bool) (h : n < signBit) :
    (ofMagnitude negative n).isNegative = negative := by
  unfold isNegative ofMagnitude signBit at *
  cases negative with
  | true =>
    simp only [if_true, UInt64.toNat_ofNat', decide_eq_true_eq]
    omega
  | false =>
    simp only [Bool.false_eq_true, if_false, UInt64.toNat_ofNat', decide_eq_false_iff_not]
    omega

/-- A number is its sign and its magnitude. -/
theorem ofMagnitude_magnitude (x : Binary64) : ofMagnitude x.isNegative x.magnitude = x := by
  have hlt := x.bits.toNat_lt
  have hbits : (if x.isNegative then signBit + x.magnitude else x.magnitude) = x.bits.toNat := by
    unfold isNegative magnitude signBit
    by_cases h : 0x8000000000000000 ≤ x.bits.toNat
    · rw [decide_eq_true h, if_pos rfl]
      omega
    · rw [decide_eq_false h, if_neg Bool.false_ne_true]
      omega
  unfold ofMagnitude
  rw [hbits, UInt64.ofNat_toNat]

theorem eq_of_magnitude (hsign : x.isNegative = y.isNegative) (h : x.magnitude = y.magnitude) :
    x = y := by
  rw [← ofMagnitude_magnitude x, ← ofMagnitude_magnitude y, hsign, h]

theorem quanta_eq_of_magnitude (h : x.magnitude = y.magnitude) : x.quanta = y.quanta := by
  unfold quanta exponentField fraction
  rw [h]

/-! ## Canonical significands -/

/-- A significand and the exponent of its last place, as a word holds them. -/
structure Canonical (m k : Nat) : Prop where
  lt : m < 2 * binade
  normal : k = 0 ∨ binade ≤ m
  le : k ≤ 2045

/-- The canonical pairs are the words of finite numbers. -/
theorem Canonical.word_lt (h : Canonical m k) : k * binade + m < infinityWord := by
  have hlt := h.lt
  have hle := h.le
  unfold infinityWord binade at *
  omega

theorem infinityWord_lt_signBit : infinityWord < signBit := by
  decide

/-- Whatever the exponent, a significand of at most 53 bits can be brought into canonical form: it
is doubled until it has all its bits or the exponent is used up. The induction is on the
exponent. -/
theorem exists_canonical (hm : m < 2 * binade) (hk : k ≤ 2045) :
    ∃ m' k', Canonical m' k' ∧ m' * 2 ^ k' = m * 2 ^ k := by
  induction k generalizing m with
  | zero => exact ⟨m, 0, ⟨hm, .inl rfl, by omega⟩, rfl⟩
  | succ k ih =>
    by_cases hnormal : binade ≤ m
    · exact ⟨m, k + 1, ⟨hm, .inr hnormal, hk⟩, rfl⟩
    · obtain ⟨m', k', hcanonical, heq⟩ := ih (m := 2 * m) (by omega) (by omega)
      refine ⟨m', k', hcanonical, ?_⟩
      rw [heq, pow_succ]
      ring

theorem binade_eq : binade = 2 ^ 52 := by
  decide

/-- The exponent of a canonical pair can be read off the size. -/
theorem Canonical.log2 (h : Canonical m k) : (m * 2 ^ k).log2 - 52 = k := by
  have hbinade := binade_eq
  have hlt := h.lt
  have hpos : 0 < 2 ^ k := Nat.two_pow_pos k
  by_cases hzero : m = 0
  · rcases h.normal with rfl | hnormal
    · simp [hzero]
    · rw [hzero] at hnormal
      exact absurd hnormal (by decide)
  · have hne : m * 2 ^ k ≠ 0 := Nat.mul_ne_zero hzero hpos.ne'
    have hupper : (m * 2 ^ k).log2 < 53 + k := by
      rw [Nat.log2_lt hne, pow_add]
      exact Nat.mul_lt_mul_of_pos_right (by omega) hpos
    rcases h.normal with rfl | hnormal
    · omega
    · have hlower : 52 + k ≤ (m * 2 ^ k).log2 := by
        rw [Nat.le_log2 hne, pow_add]
        exact Nat.mul_le_mul_right _ (by omega)
      omega

theorem nearest_mul (q : Nat) (hd : 0 < d) : nearest (q * d) d = q := by
  unfold nearest
  simp [Nat.mul_div_cancel q hd, hd]

/-- **Exact rounding.** The size of a canonical pair is rounded to its word. -/
theorem roundToWord_canonical (h : Canonical m k) (hd : 0 < d) :
    roundToWord (m * 2 ^ k * d) d = k * binade + m := by
  have hunit : unitExponent (m * 2 ^ k * d) d = k := by
    unfold unitExponent
    rw [Nat.mul_div_cancel _ hd, h.log2]
  have hnearest : nearest (m * 2 ^ k * d) (d <<< k) = m := by
    have hmul : m * 2 ^ k * d = m * (d * 2 ^ k) := by ring
    rw [Nat.shiftLeft_eq, hmul]
    exact nearest_mul m (Nat.mul_pos hd (Nat.two_pow_pos k))
  unfold roundToWord
  dsimp only
  rw [hunit, hnearest]
  exact Nat.min_eq_left h.word_lt.le

/-- The word of a canonical pair has its size. -/
theorem Canonical.quanta_eq (h : Canonical m k) (hx : x.magnitude = k * binade + m) :
    x.quanta = m * 2 ^ k := by
  have hlt := h.lt
  unfold quanta exponentField fraction
  rw [hx]
  by_cases hnormal : binade ≤ m
  · -- The highest bit of the significand carries into the exponent.
    have hexponent : (k * binade + m) / binade = k + 1 := by
      unfold binade at *
      omega
    have hfraction : (k * binade + m) % binade = m - binade := by
      unfold binade at *
      omega
    rw [hexponent, hfraction, if_neg (Nat.succ_ne_zero k), Nat.add_sub_cancel, Nat.shiftLeft_eq,
      Nat.add_sub_cancel' hnormal]
  · have hzero : k = 0 := h.normal.resolve_right hnormal
    have hexponent : (k * binade + m) / binade = 0 := by
      unfold binade at *
      omega
    have hfraction : (k * binade + m) % binade = m := by
      unfold binade at *
      omega
    rw [hexponent, hfraction, if_pos rfl, hzero, pow_zero, mul_one]

/-- Every finite number is a canonical pair. -/
theorem exists_canonical_of_finite (h : x.isFinite = true) :
    ∃ m k, Canonical m k ∧ x.magnitude = k * binade + m := by
  unfold isFinite at h
  have hlt : x.magnitude < infinityWord := of_decide_eq_true h
  by_cases hsmall : x.magnitude < binade
  · refine ⟨x.magnitude, 0, ⟨by omega, .inl rfl, by omega⟩, by omega⟩
  · refine ⟨binade + x.magnitude % binade, x.magnitude / binade - 1, ⟨?_, .inr ?_, ?_⟩, ?_⟩
    · unfold binade at *
      omega
    · omega
    · unfold infinityWord binade at *
      omega
    · unfold binade at *
      omega

/-! ## Numbers of a given size -/

/-- A finite number that is not negative, of `m * 2 ^ k` quanta. -/
structure Counts (x : Binary64) (m k : Nat) : Prop where
  isFinite : x.isFinite = true
  isNegative : x.isNegative = false
  quanta : x.quanta = m * 2 ^ k

theorem isFinite_iff : x.isFinite = true ↔ x.magnitude < infinityWord := by
  simp [isFinite]

theorem isNaN_of_isFinite (h : x.isFinite = true) : x.isNaN = false := by
  have hlt := isFinite_iff.mp h
  exact decide_eq_false (by omega)

theorem isInfinite_of_isFinite (h : x.isFinite = true) : x.isInfinite = false := by
  have hlt := isFinite_iff.mp h
  exact decide_eq_false (by omega)

/-- A size belongs to one number. -/
theorem Counts.unique (hx : Counts x m k) (hy : Counts y m k) : x = y := by
  obtain ⟨mx, kx, hcx, hmx⟩ := exists_canonical_of_finite hx.isFinite
  obtain ⟨my, ky, hcy, hmy⟩ := exists_canonical_of_finite hy.isFinite
  have hsize : mx * 2 ^ kx = my * 2 ^ ky := by
    rw [← hcx.quanta_eq hmx, ← hcy.quanta_eq hmy, hx.quanta, hy.quanta]
  -- Rounding takes the common size to both magnitudes.
  have hword : kx * binade + mx = ky * binade + my := by
    rw [← roundToWord_canonical hcx Nat.one_pos, ← roundToWord_canonical hcy Nat.one_pos, hsize]
  refine eq_of_magnitude ?_ ?_
  · rw [hx.isNegative, hy.isNegative]
  · rw [hmx, hmy, hword]

/-- A ratio that is a whole number of quanta, with a significand of 53 bits and an exponent in
range, is rounded to exactly this number. -/
theorem counts_round (hm : m < 2 * binade) (hk : k ≤ 2045) (hd : 0 < d) :
    Counts (round false (m * 2 ^ k * d) d) m k := by
  obtain ⟨m', k', hcanonical, heq⟩ := exists_canonical hm hk
  have hlt : k' * binade + m' < signBit := hcanonical.word_lt.trans infinityWord_lt_signBit
  have hmagnitude := magnitude_ofMagnitude false hlt
  unfold round
  rw [← heq, roundToWord_canonical hcanonical hd]
  refine ⟨?_, isNegative_ofMagnitude false hlt, ?_⟩
  · rw [isFinite_iff, hmagnitude]
    exact hcanonical.word_lt
  · rw [hcanonical.quanta_eq hmagnitude, heq]

theorem unit_eq : unit = 2 ^ 1074 := by
  unfold unit
  generalize 1074 = k
  exact Nat.one_shiftLeft k

theorem unit_pos : 0 < unit := by
  rw [unit_eq]
  exact pow_pos two_pos _

/-- A natural number of at most 53 bits is a double. -/
theorem counts_ofNat (hm : m < 2 * binade) : Counts (ofNat false m) m 1074 := by
  unfold ofNat
  have h := counts_round (k := 1074) hm (by omega) Nat.one_pos
  rwa [Nat.mul_one, ← unit_eq] at h

/-! ## Powers of two -/

theorem canonical_powerOfTwo {j : Nat} (hlow : 52 ≤ j) (hhigh : j ≤ 2097) :
    Canonical binade (j - 52) :=
  ⟨by decide, .inr (Nat.le_refl _), by omega⟩

/-- The power of two of `2 ^ j` quanta. -/
theorem counts_powerOfTwo {j : Nat} (hlow : 52 ≤ j) (hhigh : j ≤ 2097) :
    Counts (powerOfTwo ((j : Int) - 1074)) 1 j := by
  have hcanonical := canonical_powerOfTwo hlow hhigh
  have hlt : (j - 52) * binade + binade < signBit :=
    hcanonical.word_lt.trans infinityWord_lt_signBit
  have hword : ((j : Int) - 1074 + 1023).toNat * binade = (j - 52) * binade + binade := by
    have hexponent : ((j : Int) - 1074 + 1023).toNat = j - 52 + 1 := by omega
    rw [hexponent, Nat.succ_mul]
  have hmagnitude := magnitude_ofMagnitude false hlt
  unfold powerOfTwo
  rw [hword]
  refine ⟨?_, isNegative_ofMagnitude false hlt, ?_⟩
  · rw [isFinite_iff, hmagnitude]
    exact hcanonical.word_lt
  · rw [hcanonical.quanta_eq hmagnitude, binade_eq, ← pow_add, one_mul, Nat.add_sub_cancel' hlow]

/-- A product of numbers whose exact value is a number is this number. -/
theorem Counts.mul {j l : Nat} (hx : Counts x m k) (hy : Counts y 1 j) (hm : m < 2 * binade)
    (hl : k + j = l + 1074) (hle : l ≤ 2045) : Counts (mul x y) m l := by
  have hxnan := isNaN_of_isFinite hx.isFinite
  have hynan := isNaN_of_isFinite hy.isFinite
  have hxinf := isInfinite_of_isFinite hx.isFinite
  have hyinf := isInfinite_of_isFinite hy.isFinite
  have hproduct : x.quanta * y.quanta = m * 2 ^ l * unit := by
    rw [hx.quanta, hy.quanta, unit_eq, one_mul, mul_assoc, mul_assoc, ← pow_add, ← pow_add, hl]
  unfold Binary64.mul
  simp only [hxnan, hynan, hxinf, hyinf, Bool.or_self, Bool.false_eq_true, if_false, hx.isNegative,
    hy.isNegative, bne_self_eq_false, hproduct]
  exact counts_round hm hle unit_pos

/-- **Scaling is exact** as long as the result is a number. Far down the scale it takes two
products, and the first one is exact as well: it leaves the significand at `2 ^ 74` quanta. -/
theorem Counts.scale {l : Nat} (hx : Counts x m 1074) (hm : m < 2 * binade) (hl : l ≤ 2045) :
    Counts (scale x ((l : Int) - 1074)) m l := by
  unfold Binary64.scale
  dsimp only
  by_cases hup : 0 ≤ (l : Int) - 1074
  · have hsteps : (((l : Int) - 1074).natAbs - 1) / 1000 = 0 := by omega
    rw [if_pos hup, hsteps]
    simp only [mulRepeat, Nat.cast_zero, mul_zero, sub_zero]
    exact hx.mul (counts_powerOfTwo (by omega) (by omega)) hm (by omega) hl
  · rw [if_neg hup]
    by_cases hone : 74 ≤ l
    · have hsteps : (((l : Int) - 1074).natAbs - 1) / 1000 = 0 := by omega
      rw [hsteps]
      simp only [mulRepeat, Nat.cast_zero, mul_zero, add_zero]
      exact hx.mul (counts_powerOfTwo (by omega) (by omega)) hm (by omega) hl
    · -- Less than `2 ^ 74` quanta in the last place: two steps.
      have hsteps : (((l : Int) - 1074).natAbs - 1) / 1000 = 1 := by omega
      have hfirst : (-1000 : Int) = ((74 : Nat) : Int) - 1074 := by omega
      have hsecond : (l : Int) - 1074 + 1000 * ((1 : Nat) : Int)
          = ((l + 1000 : Nat) : Int) - 1074 := by omega
      rw [hsteps, hsecond]
      simp only [mulRepeat]
      rw [hfirst]
      have hmiddle : Counts (Binary64.mul x (powerOfTwo (((74 : Nat) : Int) - 1074))) m 74 :=
        hx.mul (counts_powerOfTwo (by omega) (by omega)) hm (by omega) (by omega)
      exact hmiddle.mul (counts_powerOfTwo (by omega) (by omega)) hm (by omega) hl

end FrameCode.Binary64
