import FrameCode.Proofs.HexGrammar

/-!
# Cutting the size of a written exponent

An exponent of a size above `exponentBound` is read as one of this size. For short significands this
changes nothing: a value other than zero is at least `2 ^ (e - 4 * after)` and below
`2 ^ (e + 4 * before)`, where `before` and `after` are the numbers of digits on each side of the
point, so with an exponent at the bound it is an infinity or zero already, and a larger exponent
keeps it there (`computed_of_large`, `computed_of_small`).

Digits are not bounded, though. Each zero after the point takes back four of the exponent, and so a
long enough significand cancels any exponent. Up to 24744 digits after the point and 24731 before it
reading is not changed by the cut (`ofHex?_eq_uncut`), and one more digit after the point is one too
many (`ofHex?_halved`).
-/

namespace FrameCode.Binary64

open FrameCode.Text

variable {before after : List ℕ} {e : ℤ} {text : List Char} {negative : Bool}

/-! ## Numbers at the ends of the range -/

theorem isNegative_infinity : (infinity false).isNegative = false := by
  decide

/-- What is too large for any number is computed as an infinity. -/
theorem computed_eq_infinity (hdigits : ∀ d ∈ before ++ after, d < 16)
    (h : 2 ^ (1024 : ℤ) ≤ writtenValue before after e) :
    computed before after e = infinity false := by
  obtain ⟨hnearest, hpositive⟩ := nearest_computed hdigits e
  have hnormal : (2 : ℚ) ^ (-1022 : ℤ) ≤ writtenValue before after e :=
    (zpow_le_zpow_right₀ one_le_two (by decide)).trans h
  exact eq_of_magnitude (hpositive.trans isNegative_infinity.symm)
    ((hnearest.of_toPrecision hnormal).unique (nearest_infinity false h))

/-- What is at most half of the least number is computed as zero. -/
theorem computed_eq_zero (hdigits : ∀ d ∈ before ++ after, d < 16)
    (h : writtenValue before after e ≤ 2 ^ (-1075 : ℤ)) :
    computed before after e = zero false := by
  obtain ⟨hnearest, hpositive⟩ := nearest_computed hdigits e
  have hnonneg : 0 ≤ writtenValue before after e := by
    rw [writtenValue_eq]
    exact mul_nonneg (Nat.cast_nonneg _) (zpow_pos two_pos _).le
  have hsmall := toPrecision_le (n := 53) (by decide) hnonneg h
  exact eq_of_magnitude hpositive
    (hnearest.unique (nearest_zero false (toPrecision_nonneg 53 hnonneg) hsmall))

/-! ## Significands that are too short to cancel the exponent -/

/-- With few digits after the point, all exponents from the bound on are as good as each other. -/
theorem computed_of_large (hdigits : ∀ d ∈ before ++ after, d < 16) (hafter : after.length ≤ 24744)
    (he : 100000 ≤ e) :
    computed before after e =
      if Nat.ofDigits 16 (before ++ after).reverse = 0 then zero false else infinity false := by
  split
  · rename_i hzero
    refine computed_eq_zero hdigits ?_
    rw [writtenValue_eq, hzero, Nat.cast_zero, zero_mul]
    exact (zpow_pos two_pos _).le
  · rename_i hne
    refine computed_eq_infinity hdigits ?_
    have hone : (1 : ℚ) ≤ (Nat.ofDigits 16 (before ++ after).reverse : ℕ) := by
      exact_mod_cast Nat.one_le_iff_ne_zero.mpr hne
    rw [writtenValue_eq]
    calc (2 : ℚ) ^ (1024 : ℤ) ≤ 2 ^ (e - 4 * after.length) :=
          zpow_le_zpow_right₀ one_le_two (by omega)
      _ ≤ _ := le_mul_of_one_le_left (zpow_pos two_pos _).le hone

/-- With few digits before the point, an exponent at the negative bound or below it gives zero. -/
theorem computed_of_small (hdigits : ∀ d ∈ before ++ after, d < 16)
    (hbefore : before.length ≤ 24731) (he : e ≤ -100000) :
    computed before after e = zero false := by
  refine computed_eq_zero hdigits ?_
  have hlt : Nat.ofDigits 16 (before ++ after).reverse < 16 ^ (before ++ after).reverse.length :=
    Nat.ofDigits_lt_base_pow_length (by decide) fun d hd => hdigits d (List.mem_reverse.mp hd)
  have hle : ((Nat.ofDigits 16 (before ++ after).reverse : ℕ) : ℚ)
      ≤ 2 ^ (4 * ((before.length + after.length : ℕ) : ℤ)) := by
    rw [← sixteen_pow]
    rw [List.length_reverse, List.length_append] at hlt
    exact_mod_cast hlt.le
  rw [writtenValue_eq]
  calc _ ≤ (2 : ℚ) ^ (4 * ((before.length + after.length : ℕ) : ℤ)) * 2 ^ (e - 4 * after.length) :=
        mul_le_mul_of_nonneg_right hle (zpow_pos two_pos _).le
    _ = 2 ^ (4 * (before.length : ℤ) + e) := by
        rw [← zpow_add₀ two_ne_zero]
        congr 1
        push_cast
        ring
    _ ≤ 2 ^ (-1075 : ℤ) := zpow_le_zpow_right₀ one_le_two (by omega)

theorem cutExponent_id (e : ℤ) : cutExponent id e = e :=
  Int.sign_mul_natAbs e

theorem computed_cutExponent (hdigits : ∀ d ∈ before ++ after, d < 16)
    (hafter : 100000 < e → after.length ≤ 24744) (hbefore : e < -100000 → before.length ≤ 24731) :
    computed before after (cutExponent (min exponentBound) e) = computed before after e := by
  by_cases hlarge : 100000 < e
  · have hcut : cutExponent (min exponentBound) e = 100000 := by
      rw [cutExponent, Int.sign_eq_one_of_pos (by omega), exponentBound, one_mul]
      omega
    rw [hcut, computed_of_large hdigits (hafter hlarge) le_rfl,
      computed_of_large hdigits (hafter hlarge) hlarge.le]
  · by_cases hsmall : e < -100000
    · have hcut : cutExponent (min exponentBound) e = -100000 := by
        rw [cutExponent, Int.sign_eq_neg_one_of_neg (by omega), exponentBound, neg_one_mul]
        omega
      rw [hcut, computed_of_small hdigits (hbefore hsmall) le_rfl,
        computed_of_small hdigits (hbefore hsmall) hsmall.le]
    · rw [cutExponent_min (by rw [exponentBound]; omega)]

/-- **The cut of the exponent.** A text is read with the exponent cut exactly if it is read with the
exponent as it stands, and both give the same number for a name and for digits too few to cancel an
exponent that is cut. -/
theorem ofHex?_eq_uncut (text : List Char) :
    (ofHex? text).isSome = (ofHexWith? id text).isSome ∧
    (∀ x, NamedLiteral text x → ofHex? text = ofHexWith? id text) ∧
    ∀ negative before after e, DigitLiteral text negative before after e →
      (100000 < e → after.length ≤ 24744) → (e < -100000 → before.length ≤ 24731) →
      ofHex? text = ofHexWith? id text := by
  refine ⟨?_, fun x h => ?_, fun negative before after e h hafter hbefore => ?_⟩
  · rw [Bool.eq_iff_iff, Option.isSome_iff_exists, Option.isSome_iff_exists, ofHex?,
      exists_ofHexWith?_iff rfl, exists_ofHexWith?_iff rfl]
  · rw [ofHex?, ofHexWith?_named h, ofHexWith?_named h]
  · rw [ofHex?, ofHexWith?_digits rfl h, ofHexWith?_digits rfl h, cutExponent_id,
      computed_cutExponent h.digit_lt hafter hbefore]

/-- An exponent that is cut to half of its size and still gives an infinity. -/
theorem ofHex?_eq_uncut_infinity :
    DigitLiteral "0x1p200000".toList false [1] [] 200000 ∧
      ofHex? "0x1p200000".toList = ofHexWith? id "0x1p200000".toList := by
  have hliteral : DigitLiteral "0x1p200000".toList false [1] [] 200000 := by
    have hplaces : Places "1".toList [1] [] := .whole ((digits?_eq_some_iff le_rfl).mp (by decide))
    have hdigits : digits? 10 "200000".toList = some [2, 0, 0, 0, 0, 0] := by decide
    have hexponent : ExponentPart "p200000".toList 200000 :=
      .written (.inl rfl) .none (by simp) ((digits?_eq_some_iff (by decide)).mp hdigits)
    exact ⟨[], _, .none, .intro .small hplaces (by simp) hexponent, [], [], rfl, by simp, by simp⟩
  exact ⟨hliteral, (ofHex?_eq_uncut _).2.2 _ _ _ _ hliteral (by simp) (by simp)⟩

/-! ## A significand that cancels the exponent -/

/-- A one after many zeros, with an exponent that is cut by one. -/
def longText (zeros : ℕ) : List Char :=
  "0.".toList ++ (List.replicate zeros '0' ++ ['1']) ++ "p100001".toList

theorem digitLiteral_longText (zeros : ℕ) :
    DigitLiteral (longText zeros) false [0] (List.replicate zeros 0 ++ [1]) 100001 := by
  have hzero : DigitChar 16 '0' 0 := ⟨by decide, .inl rfl⟩
  have hone : DigitChar 16 '1' 1 := ⟨by decide, .inl rfl⟩
  have hafter : List.Forall₂ (DigitChar 16) (List.replicate zeros '0' ++ ['1'])
      (List.replicate zeros 0 ++ [1]) := by
    induction zeros with
    | zero => exact .cons hone .nil
    | succ zeros ih => exact .cons hzero ih
  have hdigits : digits? 10 "100001".toList = some [1, 0, 0, 0, 0, 1] := by decide
  have hexponent : ExponentPart "p100001".toList 100001 :=
    .written (.inl rfl) .none (by simp) ((digits?_eq_some_iff (by decide)).mp hdigits)
  refine ⟨[], _, .none, .intro .none (.pointed (.cons hzero .nil) hafter) (by simp) hexponent,
    [], [], ?_, by simp, by simp⟩
  simp [longText]

theorem writtenValue_longText (zeros : ℕ) (e : ℤ) :
    writtenValue [0] (List.replicate zeros 0 ++ [1]) e = 2 ^ (e - 4 * (zeros + 1 : ℕ)) := by
  have hreverse : ([0] ++ (List.replicate zeros 0 ++ [1])).reverse
      = [1] ++ List.replicate zeros 0 ++ [0] := by simp
  rw [writtenValue_eq, hreverse, Nat.ofDigits_append_zero, Nat.ofDigits_append_replicate_zero,
    Nat.ofDigits_singleton, List.length_append, List.length_replicate, List.length_singleton,
    Nat.cast_one, one_mul]

theorem computed_eq_powerOfTwo {f : ℤ} (hdigits : ∀ d ∈ before ++ after, d < 16) (hlow : -1022 ≤ f)
    (hhigh : f ≤ 1023) (h : writtenValue before after e = 2 ^ f) :
    computed before after e = powerOfTwo f := by
  obtain ⟨hfinite, hpower, hsize⟩ := powerOfTwo_eq hlow hhigh
  obtain ⟨hnearest, hpositive⟩ := nearest_computed hdigits e
  rw [h, ← hsize] at hnearest
  have hnormal : (2 : ℚ) ^ (-1022 : ℤ) ≤ (powerOfTwo f).size := by
    rw [hsize]
    exact zpow_le_zpow_right₀ one_le_two hlow
  exact eq_of_magnitude (hpositive.trans hpower.symm)
    ((hnearest.of_toPrecision hnormal).unique (nearest_self (isNaN_of_isFinite hfinite)))

/-- The value of this text is `2 ^ 1021`; the cut halves it. -/
theorem ofHex?_halved :
    ofHex? (longText 24744) = some (powerOfTwo 1020) ∧
      ofHexWith? id (longText 24744) = some (powerOfTwo 1021) ∧
        powerOfTwo 1020 ≠ powerOfTwo 1021 := by
  have hliteral := digitLiteral_longText 24744
  have hvalue := writtenValue_longText 24744
  generalize List.replicate 24744 0 ++ [1] = after at hliteral hvalue
  refine ⟨?_, ?_, by decide⟩
  · have hcut : cutExponent (min exponentBound) 100001 = 100000 := by decide
    rw [ofHex?, ofHexWith?_digits rfl hliteral, hcut,
      computed_eq_powerOfTwo (f := 1020) hliteral.digit_lt (by decide) (by decide) (hvalue _)]
    rfl
  · rw [ofHexWith?_digits rfl hliteral, cutExponent_id,
      computed_eq_powerOfTwo (f := 1021) hliteral.digit_lt (by decide) (by decide) (hvalue _)]
    rfl

end FrameCode.Binary64
