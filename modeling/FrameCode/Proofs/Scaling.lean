import FrameCode.Proofs.Rounding

/-!
# Scaling by powers of two

A number is scaled by a power of two in several products, each with rounding. The result is still
that of one rounding (`nearest_scale`), if the number to start with is an integer of moderate size
(`Moderate`): its significand ends far above the quantum, so the first product downwards is exact.

The reason is the same for each product. What has been reached so far is exact, or it has left the
range of the finite numbers at the end to which scaling goes on (`Settled`), and then it stays
there: infinity times a power of two is infinity, and zero is zero (`mul_powerOfTwo_self`).
Downwards only two products count, for after the second one nothing is left. For the same reason
scaling may end as soon as it meets an infinity or a zero (`scaleLoop_eq`).
-/

namespace FrameCode.Binary64

variable {x y : Binary64} {q : ℚ} {m n k : ℕ} {f e : ℤ}

/-! ## Sizes that are represented -/

/-- The sizes of the finite numbers. -/
def Representable (q : ℚ) : Prop :=
  ∃ z : Binary64, z.isFinite = true ∧ z.size = q

theorem Counts.representable (h : Counts x m k) : Representable ((m * 2 ^ k : ℕ) / unit) :=
  ⟨x, h.isFinite, by rw [size, h.quanta]⟩

/-- A significand of 53 bits in the range of the finite numbers is represented. If its exponent is
too large it has fewer bits, and they can be shifted. -/
theorem representable_of_lt (hm : m < 2 * binade) (h : m * 2 ^ k < 2 * binade * 2 ^ 2045) :
    Representable ((m * 2 ^ k : ℕ) / unit) := by
  by_cases hk : k ≤ 2045
  · exact (counts_round hm hk Nat.one_pos).representable
  · generalize hl : 2045 = l at h hk
    have hshift : m * 2 ^ k = m * 2 ^ (k - l) * 2 ^ l := by
      rw [mul_assoc, ← pow_add, Nat.sub_add_cancel (by omega)]
    rw [hshift] at h ⊢
    have hbits : m * 2 ^ (k - l) < 2 * binade := Nat.lt_of_mul_lt_mul_right h
    exact (counts_round hbits (by omega) Nat.one_pos).representable

theorem size_significand (m k : ℕ) : ((m * 2 ^ k : ℕ) : ℚ) / unit = m * 2 ^ ((k : ℤ) - 1074) := by
  rw [unit_rat, zpow_sub₀ two_ne_zero, zpow_natCast, Nat.cast_mul, Nat.cast_pow, Nat.cast_ofNat,
    mul_div_assoc]

/-- Up to `2 ^ 1024` every significand of 53 bits is represented. -/
theorem representable_or_le (hm : m ≤ 2 * binade) (k : ℕ) :
    Representable ((m * 2 ^ k : ℕ) / unit) ∨ 2 ^ (1024 : ℤ) ≤ ((m * 2 ^ k : ℕ) : ℚ) / unit := by
  by_cases hlt : m * 2 ^ k < binade * 2 ^ 2046
  · left
    have hrange : binade * 2 ^ 2046 = 2 * binade * 2 ^ 2045 := by
      generalize hl : 2045 = l
      have hsucc : 2046 = l + 1 := by omega
      rw [hsucc, pow_succ]
      ring
    rw [hrange] at hlt
    by_cases hcarry : m = 2 * binade
    · -- A significand that was rounded up to `2 ^ 53` is one of 53 bits at the next exponent.
      have heq : m * 2 ^ k = binade * 2 ^ (k + 1) := by
        rw [hcarry, pow_succ]
        ring
      rw [heq] at hlt ⊢
      exact representable_of_lt (by decide) hlt
    · exact representable_of_lt (by omega) hlt
  · right
    rw [← size_infinity false, size, quanta_infinity]
    refine div_le_div_of_nonneg_right ?_ unit_pos_rat.le
    rw [Nat.cast_le]
    exact not_lt.mp hlt

/-! ## One product -/

/-- A size that can be scaled by `2 ^ f` after rounding as well as before. -/
inductive Settled (f : ℤ) (q : ℚ) : Prop
  | exact (h : Representable q)
  | above (hf : 0 ≤ f) (hq : 2 ^ (1024 : ℤ) ≤ q)
  | below (hf : f ≤ 0) (hpos : 0 ≤ q) (hq : q ≤ 2 ^ (-1075 : ℤ))

/-- The powers of two that scaling uses. -/
theorem powerOfTwo_eq (hlow : -1022 ≤ f) (hhigh : f ≤ 1023) :
    (powerOfTwo f).isFinite = true ∧ (powerOfTwo f).isNegative = false ∧
      (powerOfTwo f).size = 2 ^ f := by
  obtain ⟨j, hj⟩ := Int.eq_ofNat_of_zero_le (by omega : 0 ≤ f + 1074)
  have hf : f = (j : ℤ) - 1074 := by omega
  have hcounts := counts_powerOfTwo (j := j) (by omega) (by omega)
  rw [← hf] at hcounts
  refine ⟨hcounts.isFinite, hcounts.isNegative, ?_⟩
  rw [size, hcounts.quanta, size_significand, ← hf, Nat.cast_one, one_mul]

theorem isNegative_mul (hx : x.isNegative = false) (hy : y.isNegative = false)
    (hxfinite : x.isFinite = true) (hyfinite : y.isFinite = true) :
    (mul x y).isNegative = false := by
  unfold mul
  simp only [isNaN_of_isFinite hxfinite, isNaN_of_isFinite hyfinite,
    isInfinite_of_isFinite hxfinite, isInfinite_of_isFinite hyfinite, Bool.or_self,
    Bool.false_eq_true, if_false, isNegative_round, hx, hy, bne_self_eq_false]

/-- An infinity or a zero is the same after a product with a power of two. -/
theorem mul_powerOfTwo_self (hx : x.isInfinite = true ∨ x.isZero = true) (hlow : -1022 ≤ f)
    (hhigh : f ≤ 1023) : mul x (powerOfTwo f) = x := by
  obtain ⟨hfinite, hnegative, hpower⟩ := powerOfTwo_eq hlow hhigh
  have hpos : (0 : ℚ) < (powerOfTwo f).size := by
    rw [hpower]
    exact zpow_pos two_pos f
  rcases hx with hx | hx
  · have hmagnitude : x.magnitude = infinityWord := of_decide_eq_true hx
    have hnan : x.isNaN = false := isNaN_eq_false_iff.mpr hmagnitude.le
    have hzero : x.isZero = false := by
      refine decide_eq_false ?_
      rw [hmagnitude]
      decide
    have hy : (powerOfTwo f).isZero = false := by
      refine decide_eq_false fun h => ?_
      rw [size_eq_zero h] at hpos
      exact lt_irrefl _ hpos
    unfold mul
    simp only [hnan, isNaN_of_isFinite hfinite, hx, hzero, hy, hnegative, Bool.or_self,
      Bool.true_or, Bool.false_eq_true, if_false, if_true, Bool.bne_false]
    rw [infinity, ← hmagnitude, ofMagnitude_magnitude]
  · have hmagnitude : x.magnitude = 0 := of_decide_eq_true hx
    have hxfinite : x.isFinite = true := by
      rw [isFinite_iff, hmagnitude]
      decide
    refine eq_of_magnitude ?_ ?_
    · unfold mul
      simp only [isNaN_of_isFinite hxfinite, isNaN_of_isFinite hfinite,
        isInfinite_of_isFinite hxfinite, isInfinite_of_isFinite hfinite, Bool.or_self,
        Bool.false_eq_true, if_false, isNegative_round, hnegative, Bool.bne_false]
    · have hproduct := nearest_product hxfinite hfinite
      rw [size_eq_zero hmagnitude, zero_mul] at hproduct
      rw [hmagnitude, hproduct.unique (nearest_zero false le_rfl (zpow_pos two_pos _).le),
        magnitude_zero]

/-- **One product.** From a settled size, rounding before the product does not matter. -/
theorem Nearest.mul_powerOfTwo (h : Nearest q x) (hx : x.isNegative = false) (hs : Settled f q)
    (hlow : -1022 ≤ f) (hhigh : f ≤ 1023) :
    Nearest (q * 2 ^ f) (mul x (powerOfTwo f)) ∧ (mul x (powerOfTwo f)).isNegative = false := by
  obtain ⟨hfinite, hnegative, hpower⟩ := powerOfTwo_eq hlow hhigh
  have hpos : (0 : ℚ) < 2 ^ f := zpow_pos two_pos f
  cases hs with
  | exact hrep =>
    obtain ⟨z, hz, rfl⟩ := hrep
    have hword := h.unique (nearest_self (isNaN_of_isFinite hz))
    have hxfinite : x.isFinite = true := by
      rw [isFinite_iff, hword]
      exact isFinite_iff.mp hz
    have hsize : x.size = z.size := by rw [size, size, quanta_eq_of_magnitude hword]
    rw [← hsize, ← hpower]
    exact ⟨nearest_product hxfinite hfinite, isNegative_mul hx hnegative hxfinite hfinite⟩
  | above hf hq =>
    have hword := h.unique (nearest_infinity false hq)
    rw [magnitude_infinity] at hword
    rw [mul_powerOfTwo_self (.inl (decide_eq_true hword)) hlow hhigh]
    refine ⟨(nearest_infinity false (hq.trans ?_)).of_magnitude hword, hx⟩
    have hq0 : 0 ≤ q := (zpow_pos two_pos _).le.trans hq
    exact le_mul_of_one_le_right hq0 (one_le_zpow₀ one_le_two hf)
  | below hf hq0 hq =>
    have hword := h.unique (nearest_zero false hq0 hq)
    rw [magnitude_zero] at hword
    rw [mul_powerOfTwo_self (.inr (decide_eq_true hword)) hlow hhigh]
    refine ⟨(nearest_zero false (mul_nonneg hq0 hpos.le) ?_).of_magnitude hword, hx⟩
    exact (mul_le_of_le_one_right hq0 (zpow_le_one_of_nonpos₀ one_le_two hf)).trans hq

/-! ## Several products -/

/-- Repeated products round once, if each of them starts from a settled size. The induction is on
the number of products, and the first one is taken off. -/
theorem Nearest.mulRepeat (hlow : -1022 ≤ f) (hhigh : f ≤ 1023) (n : ℕ) (h : Nearest q x)
    (hx : x.isNegative = false) (hs : ∀ i < n, Settled f (q * 2 ^ (f * i))) :
    Nearest (q * 2 ^ (f * n)) (mulRepeat (powerOfTwo f) n x) ∧
      (mulRepeat (powerOfTwo f) n x).isNegative = false := by
  induction n generalizing q x with
  | zero => simpa [Binary64.mulRepeat] using ⟨h, hx⟩
  | succ n ih =>
    have hshift : ∀ i : ℕ, q * 2 ^ (f * ((i + 1 : ℕ) : ℤ)) = q * 2 ^ f * 2 ^ (f * i) := by
      intro i
      rw [mul_assoc, ← zpow_add₀ two_ne_zero]
      congr 2
      push_cast
      ring
    obtain ⟨hfirst, hsign⟩ := h.mul_powerOfTwo hx (by simpa using hs 0 (Nat.succ_pos n)) hlow hhigh
    rw [Binary64.mulRepeat, hshift]
    refine ih hfirst hsign fun i hi => ?_
    rw [← hshift]
    exact hs (i + 1) (Nat.succ_lt_succ hi)

/-- A number that is not negative, with a significand that ends far above the quantum and a size far
below the largest one. -/
structure Moderate (x : Binary64) : Prop where
  isFinite : x.isFinite = true
  isNegative : x.isNegative = false
  significand : ∃ m k, m ≤ 2 * binade ∧ 1000 ≤ k ∧ x.quanta = m * 2 ^ k
  size_le : x.size ≤ 2 ^ (925 : ℤ)

/-- Upwards every size on the way is exact, or it has passed the largest finite number. -/
theorem Moderate.settled_up (h : Moderate x) (hf : 0 ≤ f) (i : ℕ) :
    Settled f (x.size * 2 ^ ((1000 : ℤ) * i)) := by
  obtain ⟨m, k, hm, -, hquanta⟩ := h.significand
  have hsize : x.size * 2 ^ ((1000 : ℤ) * i) = ((m * 2 ^ (k + 1000 * i) : ℕ) : ℚ) / unit := by
    rw [size, hquanta, size_significand, size_significand, mul_assoc, ← zpow_add₀ two_ne_zero]
    congr 2
    push_cast
    ring
  rw [hsize]
  rcases representable_or_le hm (k + 1000 * i) with hrep | hle
  · exact .exact hrep
  · exact .above hf hle

/-- Downwards the first two sizes are exact, and all later ones are too small to be seen. -/
theorem Moderate.settled_down (h : Moderate x) (hf : f ≤ 0) (i : ℕ) :
    Settled f (x.size * 2 ^ ((-1000 : ℤ) * i)) := by
  obtain ⟨m, k, hm, hk, hquanta⟩ := h.significand
  rcases Nat.lt_or_ge i 2 with hi | hi
  · have hsize : x.size * 2 ^ ((-1000 : ℤ) * i) = ((m * 2 ^ (k - 1000 * i) : ℕ) : ℚ) / unit := by
      rw [size, hquanta, size_significand, size_significand, mul_assoc, ← zpow_add₀ two_ne_zero]
      congr 2
      omega
    have hle : x.size * 2 ^ ((-1000 : ℤ) * i) ≤ 2 ^ (925 : ℤ) := by
      refine (mul_le_of_le_one_right x.size_nonneg ?_).trans h.size_le
      exact zpow_le_one_of_nonpos₀ one_le_two (by omega)
    rw [hsize] at hle ⊢
    rcases representable_or_le hm (k - 1000 * i) with hrep | hgt
    · exact .exact hrep
    · have hlt : (2 : ℚ) ^ (925 : ℤ) < 2 ^ (1024 : ℤ) := zpow_lt_zpow_right₀ one_lt_two (by decide)
      exact absurd (hgt.trans hle) (not_le.mpr hlt)
  · refine .below hf (mul_nonneg x.size_nonneg (zpow_pos two_pos _).le) ?_
    calc x.size * 2 ^ ((-1000 : ℤ) * i) ≤ 2 ^ (925 : ℤ) * 2 ^ (-2000 : ℤ) := by
          refine mul_le_mul h.size_le ?_ (zpow_pos two_pos _).le (zpow_pos two_pos _).le
          exact zpow_le_zpow_right₀ one_le_two (by omega)
      _ = 2 ^ (-1075 : ℤ) := by rw [← zpow_add₀ two_ne_zero]; rfl

/-- **Scaling rounds once.** The products of scaling give the number nearest to the scaled size. -/
theorem nearest_scale (h : Moderate x) (e : ℤ) :
    Nearest (x.size * 2 ^ e) (scale x e) ∧ (scale x e).isNegative = false := by
  have hself := nearest_self (isNaN_of_isFinite h.isFinite)
  unfold scale
  dsimp only
  generalize hn : (e.natAbs - 1) / 1000 = n
  by_cases hup : 0 ≤ e
  · rw [if_pos hup]
    obtain ⟨hmany, hsign⟩ := hself.mulRepeat (f := 1000) (by decide) (by decide) n h.isNegative
      fun i _ => h.settled_up (by decide) i
    have hlast := hmany.mul_powerOfTwo (f := e - 1000 * n) hsign (h.settled_up (by omega) n)
      (by omega) (by omega)
    rwa [mul_assoc, ← zpow_add₀ two_ne_zero, add_sub_cancel] at hlast
  · rw [if_neg hup]
    obtain ⟨hmany, hsign⟩ := hself.mulRepeat (f := -1000) (by decide) (by decide) n h.isNegative
      fun i _ => h.settled_down (by decide) i
    have hlast := hmany.mul_powerOfTwo (f := e + 1000 * n) hsign (h.settled_down (by omega) n)
      (by omega) (by omega)
    have hexponent : -1000 * (n : ℤ) + (e + 1000 * n) = e := by ring
    rwa [mul_assoc, ← zpow_add₀ two_ne_zero, hexponent] at hlast

/-! ## Ending early -/

theorem mulRepeat_self (h : mul x y = x) (n : ℕ) : mulRepeat y n x = x := by
  induction n with
  | zero => rfl
  | succ n ih => rw [mulRepeat, h, ih]

/-- Scaling does not lead out of the infinities and the zeros. -/
theorem scale_self (hx : x.isInfinite = true ∨ x.isZero = true) (e : ℤ) : scale x e = x := by
  unfold scale
  dsimp only
  split
  · rw [mulRepeat_self (mul_powerOfTwo_self hx (by decide) (by decide)),
      mul_powerOfTwo_self hx (by omega) (by omega)]
  · rw [mulRepeat_self (mul_powerOfTwo_self hx (by decide) (by decide)),
      mul_powerOfTwo_self hx (by omega) (by omega)]

theorem scale_of_le (x : Binary64) (hlow : -1000 ≤ e) (hhigh : e ≤ 1000) :
    scale x e = mul x (powerOfTwo e) := by
  have hsteps : (e.natAbs - 1) / 1000 = 0 := by omega
  unfold scale
  simp only [hsteps, mulRepeat, Nat.cast_zero, mul_zero, sub_zero, add_zero, ite_self]

/-- The first product upwards. -/
theorem scale_up (x : Binary64) (he : 1000 < e) :
    scale x e = scale (mul x (powerOfTwo 1000)) (e - 1000) := by
  have hsteps : (e.natAbs - 1) / 1000 = ((e - 1000).natAbs - 1) / 1000 + 1 := by omega
  unfold scale
  dsimp only
  rw [if_pos (by omega), if_pos (by omega), hsteps, mulRepeat]
  congr 2
  push_cast
  ring

/-- The first product downwards. -/
theorem scale_down (x : Binary64) (he : e < -1000) :
    scale x e = scale (mul x (powerOfTwo (-1000))) (e + 1000) := by
  have hsteps : (e.natAbs - 1) / 1000 = ((e + 1000).natAbs - 1) / 1000 + 1 := by omega
  unfold scale
  dsimp only
  rw [if_neg (by omega), if_neg (by omega), hsteps, mulRepeat]
  congr 2
  push_cast
  ring

/-- **Ending early does not matter**: whatever is left of the exponent when an infinity or a zero is
reached would not change the number any more. -/
theorem scaleLoop_eq (x : Binary64) (e : ℤ) : scaleLoop x e = scale x e := by
  fun_induction scaleLoop x e with
  | case1 x e he y hinfinite => rw [scale_up x he, scale_self (.inl hinfinite)]
  | case2 x e he y _ ih => rw [scale_up x he, ih]
  | case3 x e _ he y hzero => rw [scale_down x he, scale_self (.inr hzero)]
  | case4 x e _ he y _ ih => rw [scale_down x he, ih]
  | case5 x e hhigh hlow => rw [scale_of_le x (by omega) (by omega)]

/-! ## Integers -/

theorem moderate_of_quanta {l : ℕ} (hnan : x.isNaN = false) (hx : x.isNegative = false)
    (hm : m ≤ 2 * binade) (hlow : 1000 ≤ l) (hhigh : l ≤ 1946) (hquanta : x.quanta = m * 2 ^ l) :
    Moderate x := by
  have hle : x.size ≤ 2 ^ (925 : ℤ) := by
    have hbits : (m : ℚ) ≤ 2 ^ (53 : ℤ) := by
      rw [binade_eq] at hm
      exact_mod_cast hm
    rw [size, hquanta, size_significand]
    calc (m : ℚ) * 2 ^ ((l : ℤ) - 1074) ≤ 2 ^ (53 : ℤ) * 2 ^ (872 : ℤ) := by
          refine mul_le_mul hbits ?_ (zpow_pos two_pos _).le (zpow_pos two_pos _).le
          exact zpow_le_zpow_right₀ one_le_two (by omega)
      _ = 2 ^ (925 : ℤ) := by rw [← zpow_add₀ two_ne_zero]; rfl
  have hlt : (2 : ℚ) ^ (925 : ℤ) < 2 ^ (1024 : ℤ) := zpow_lt_zpow_right₀ one_lt_two (by decide)
  exact ⟨isFinite_of_size_lt hnan (hle.trans_lt hlt), hx, ⟨m, l, hm, hlow, hquanta⟩, hle⟩

/-- A positive integer of up to 64 bits is a normal number in range. -/
theorem unitExponent_mul_unit (hpos : 0 < n) (hn : n < 2 ^ 64) :
    binade ≤ n * unit / 1 ∧ 1022 ≤ unitExponent (n * unit) 1 ∧
      unitExponent (n * unit) 1 ≤ 1085 := by
  have hne : n * unit ≠ 0 := Nat.mul_ne_zero hpos.ne' unit_pos.ne'
  have hbits : ∀ k, unit = 2 ^ k → k ≤ (n * unit).log2 ∧ (n * unit).log2 < 64 + k := by
    intro k hk
    rw [Nat.le_log2 hne, Nat.log2_lt hne, hk, pow_add]
    exact ⟨Nat.le_mul_of_pos_left _ hpos, Nat.mul_lt_mul_of_pos_right hn (Nat.two_pow_pos k)⟩
  obtain ⟨hlow, hhigh⟩ := hbits 1074 unit_eq
  rw [unitExponent, Nat.div_one]
  refine ⟨?_, by omega, by omega⟩
  rw [binade_eq, ← Nat.le_log2 hne]
  omega

theorem magnitude_ofNat_zero (negative : Bool) : (ofNat negative 0).magnitude = 0 := by
  cases negative <;> decide +kernel

/-- An integer of up to 64 bits is rounded to 53 significant bits. -/
theorem size_ofNat (negative : Bool) (hn : n < 2 ^ 64) :
    (ofNat negative n).size = toPrecision 53 n := by
  rcases Nat.eq_zero_or_pos n with rfl | hpos
  · rw [size_eq_zero (magnitude_ofNat_zero negative), Nat.cast_zero, toPrecision_zero]
  · obtain ⟨hnormal, -, hk⟩ := unitExponent_mul_unit hpos hn
    have hratio : ((n * unit : ℕ) : ℚ) / (1 : ℕ) / unit = n := by
      rw [Nat.cast_one, div_one, Nat.cast_mul, mul_div_cancel_right₀ _ unit_pos_rat.ne']
    rw [ofNat, size_round negative Nat.one_pos hnormal (by omega), hratio]

/-- An integer of up to 60 bits is rounded to 53 significant bits, and can be scaled. -/
theorem moderate_ofNat (hn : n < 2 ^ 60) :
    Moderate (ofNat false n) ∧ (ofNat false n).size = toPrecision 53 n := by
  refine ⟨?_, size_ofNat false (by omega)⟩
  rcases Nat.eq_zero_or_pos n with rfl | hpos
  · have hquanta : (ofNat false 0).quanta = 0 * 2 ^ 1000 := by
      rw [Nat.zero_mul]
      decide +kernel
    exact moderate_of_quanta (isNaN_round _ _ _) (isNegative_round _ _ _) (Nat.zero_le _) le_rfl
      (by decide) hquanta
  · obtain ⟨-, hlow, hhigh⟩ := unitExponent_mul_unit hpos (by omega)
    obtain ⟨hquanta, -⟩ := quanta_round (a := n * unit) false Nat.one_pos (by omega)
    obtain ⟨hm, -⟩ := significand_bounds (a := n * unit) Nat.one_pos
    exact moderate_of_quanta (isNaN_round _ _ _) (isNegative_round _ _ _) hm (by omega) (by omega)
      hquanta

end FrameCode.Binary64
