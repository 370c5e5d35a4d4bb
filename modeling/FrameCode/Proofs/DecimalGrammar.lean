import FrameCode.Literal.Float
import FrameCode.Proofs.HexGrammar

/-!
# The grammar of decimal notation

A number in decimal notation is a sign and a body, with blanks around them and underscores inside
them. A body is the name of an infinity or of NaN, as in hexadecimal notation, or it is in digits
(`DecimalForm`): decimal digits with a point anywhere among them, and an optional exponent. Every
underscore stands between two digits (`Spaced`), and the number is what is written without them.

Reading accepts exactly these literals, and gives the number nearest to the exact value
(`decimalFloat?_eq_some_iff`). Magnitudes that are decided by the number of their digits are past
the greatest number, or nearer to zero than to the least one, so nothing is lost
(`Decimal.nearest_toBinary64`).
-/

namespace FrameCode.Binary64

open FrameCode.Text

variable {cs body text sign : List Char} {before after ds : List ℕ} {e : ℤ} {negative : Bool}
  {x : Binary64} {c : Char}

/-! ## The grammar -/

/-- The exponent: a letter, a sign and digits, or nothing at all. Digits that follow once the bound
of exponents is reached do not count. -/
inductive DecimalExponent : List Char → ℤ → Prop
  | none : DecimalExponent [] 0
  | written {mark : Char} {sign cs : List Char} {ds : List ℕ} {negative : Bool}
    (hmark : mark = 'e' ∨ mark = 'E') (hsign : Sign sign negative) (hne : cs ≠ [])
    (h : List.Forall₂ (DigitChar 10) cs ds) :
    DecimalExponent (mark :: (sign ++ cs))
      (if negative then -(decimalExponent ds : ℤ) else (decimalExponent ds : ℤ))

/-- A body in decimal digits, of which there is at least one. -/
inductive DecimalForm : List Char → List ℕ → List ℕ → ℤ → Prop
  | intro {places exponent : List Char} {before after : List ℕ} {e : ℤ}
    (hplaces : Places places before after) (hdigits : ∀ d ∈ before ++ after, d < 10)
    (hne : before ++ after ≠ []) (hexponent : DecimalExponent exponent e) :
    DecimalForm (places ++ exponent) before after e

/-- The exact value of decimal digits before and after the point, times a power of ten. -/
def decimalValue (before after : List ℕ) (e : ℤ) : ℚ :=
  ((Nat.ofDigits 10 (before ++ after).reverse : ℕ) : ℚ) / 10 ^ after.length * 10 ^ e

/-- An exponent of up to five digits is taken in whole, and so is a longer one unless it is far out
of range. -/
theorem decimalExponent_of_lt (h : Nat.ofDigits 10 ds.reverse < 10 * decimalExponentBound) :
    decimalExponent ds = Nat.ofDigits 10 ds.reverse := by
  rw [← valueOf_eq_ofDigits] at h ⊢
  induction ds using List.reverseRecOn with
  | nil => rfl
  | append_singleton ds d ih =>
    have hvalue : valueOf 10 (ds ++ [d]) = valueOf 10 ds * 10 + d := List.foldl_append
    have hexponent : decimalExponent (ds ++ [d])
        = if decimalExponent ds < decimalExponentBound then decimalExponent ds * 10 + d
          else decimalExponent ds := List.foldl_append
    -- What stands before the last digit has not reached the bound, so this one is taken in too.
    rw [hvalue] at h
    rw [hexponent, ih (by omega), if_pos (by omega), hvalue]

/-! ## The characters of a literal -/

/-- The decimal digits among the hexadecimal ones. -/
theorem forall₂_ten_iff :
    List.Forall₂ (DigitChar 10) cs ds ↔
      List.Forall₂ (DigitChar 16) cs ds ∧ ∀ d ∈ ds, d < 10 := by
  have hchar : ∀ c d, DigitChar 10 c d ↔ DigitChar 16 c d ∧ d < 10 := by
    intro c d
    constructor
    · rintro ⟨hlt, hchar⟩
      exact ⟨⟨by omega, hchar⟩, hlt⟩
    · rintro ⟨⟨-, hchar⟩, hlt⟩
      exact ⟨hlt, hchar⟩
  induction cs generalizing ds with
  | nil =>
    rw [List.forall₂_nil_left_iff, List.forall₂_nil_left_iff]
    constructor
    · rintro rfl
      simp
    · rintro ⟨rfl, -⟩
      rfl
  | cons c cs ih =>
    cases ds with
    | nil => simp
    | cons d ds =>
      simp only [List.forall₂_cons, List.forall_mem_cons, hchar, ih]
      constructor
      · rintro ⟨⟨hc, hd⟩, hcs, hds⟩
        exact ⟨⟨hc, hcs⟩, hd, hds⟩
      · rintro ⟨⟨hc, hcs⟩, hd, hds⟩
        exact ⟨⟨hc, hd⟩, hcs, hds⟩

theorem DecimalExponent.plain (h : DecimalExponent cs e) (hc : c ∈ cs) : Plain ['+', '-'] c := by
  cases h with
  | none => cases hc
  | @written mark _ _ _ _ hmark hsign hne h =>
    have hletter : Plain [] mark := by
      rcases hmark with rfl | rfl
      · exact ⟨rfl, by decide⟩
      · exact ⟨rfl, by decide⟩
    exact plain_of_exponent hletter hsign h hc

theorem DecimalForm.plain (h : DecimalForm body before after e) (hc : c ∈ body) :
    Plain ['.', '+', '-'] c := by
  obtain ⟨hplaces, -, -, hexponent⟩ := h
  rcases List.mem_append.mp hc with hc | hc
  · exact (hplaces.plain hc).mono (by simp)
  · exact (hexponent.plain hc).mono (by simp)

theorem DecimalForm.bare (h : DecimalForm body before after e) : Bare body := by
  refine ⟨?_, fun c hc => (h.plain hc).isBlank⟩
  obtain ⟨hplaces, -, hne, -⟩ := h
  obtain ⟨c, rest, rfl, hhead⟩ := hplaces.exists_head hne
  exact ⟨c, _, rfl, hhead⟩

theorem DecimalForm.readNamed (h : DecimalForm body before after e) (negative : Bool) :
    readNamed negative body = none :=
  readNamed_of_plain (fun _ hc => h.plain hc) (by decide) (by decide) negative

/-! ## Reading a body -/

/-- The letter of an exponent is a hexadecimal digit, but not a decimal one. -/
theorem Places.ne_letter (h : Places cs before after) (hdigits : ∀ d ∈ before ++ after, d < 10)
    (hc : c ∈ cs) : (c == 'e' || c == 'E') = false := by
  have hdigit : ∀ d < 10, (d.digitChar == 'e' || d.digitChar == 'E') = false ∧
      (d.digitChar.toUpper == 'e' || d.digitChar.toUpper == 'E') = false := by decide
  have hrow : ∀ {cs ds}, List.Forall₂ (DigitChar 10) cs ds →
      ∀ c ∈ cs, (c == 'e' || c == 'E') = false := by
    intro cs ds h c hc
    obtain ⟨i, hi, rfl⟩ := List.getElem_of_mem hc
    have hlength := h.length_eq
    have hget := h.get hi (by omega)
    obtain ⟨hsmall, hcapital⟩ := hdigit _ hget.lt
    rcases hget.char with hchar | hchar
    · rw [List.get_eq_getElem] at hchar
      rw [hchar]
      exact hsmall
    · rw [List.get_eq_getElem] at hchar
      rw [hchar]
      exact hcapital
  rw [List.forall_mem_append] at hdigits
  cases h with
  | whole h => exact hrow (forall₂_ten_iff.mpr ⟨h, hdigits.1⟩) c hc
  | pointed hbefore hafter =>
    rcases List.mem_append.mp hc with hc | hc
    · exact hrow (forall₂_ten_iff.mpr ⟨hbefore, hdigits.1⟩) c hc
    · rcases List.mem_cons.mp hc with rfl | hc
      · rfl
      · exact hrow (forall₂_ten_iff.mpr ⟨hafter, hdigits.2⟩) c hc

theorem readDecimalExponent_of_part (h : DecimalExponent cs e) :
    readDecimalExponent cs.tail? = some e := by
  cases h with
  | none => rfl
  | written hmark hsign hne h =>
    rw [List.tail?_cons, readDecimalExponent, takeSign_digits hsign h]
    dsimp only
    rw [if_neg (mt List.isEmpty_iff.mp hne), (digits?_eq_some_iff (by decide)).mpr h,
      Option.map_some]

theorem decimalExponent_of_read (hc : (c == 'e' || c == 'E') = true)
    (h : readDecimalExponent (some cs) = some e) : DecimalExponent (c :: cs) e := by
  rw [Bool.or_eq_true, beq_iff_eq, beq_iff_eq] at hc
  rcases htake : takeSign cs with ⟨negative, digits⟩
  obtain ⟨sign, hsign, rfl⟩ := exists_sign htake
  rw [readDecimalExponent, htake] at h
  dsimp only at h
  split at h
  · cases h
  · rename_i hne
    obtain ⟨ds, hds, rfl⟩ := Option.map_eq_some_iff.mp h
    exact .written hc hsign (mt List.isEmpty_iff.mpr hne) ((digits?_eq_some_iff (by decide)).mp hds)

theorem cutAt_exponent (hplaces : ∀ c ∈ cs, (c == 'e' || c == 'E') = false)
    (hexponent : DecimalExponent text e) :
    cutAt (fun c => c == 'e' || c == 'E') (cs ++ text) = (cs, text.tail?) := by
  cases hexponent with
  | none =>
    rw [List.append_nil]
    exact cutAt_of_forall hplaces
  | written hmark hsign hne h =>
    exact cutAt_append hplaces (by rcases hmark with rfl | rfl <;> rfl)

/-- A body in digits is read as what its digits and its exponent denote. -/
theorem DecimalForm.readDecimal (h : DecimalForm body before after e) :
    readDecimal body = some ⟨valueOf 10 (before ++ after), e - after.length⟩ := by
  obtain ⟨hplaces, hdigits, hne, hexponent⟩ := h
  obtain ⟨integer, fraction?, hcut, hbefore, hafter⟩ := hplaces.cutAt
  rw [List.forall_mem_append] at hdigits
  have hbefore := forall₂_ten_iff.mpr ⟨hbefore, hdigits.1⟩
  have hafter := forall₂_ten_iff.mpr ⟨hafter, hdigits.2⟩
  unfold Binary64.readDecimal
  rw [cutAt_exponent (fun c hc => hplaces.ne_letter (List.forall_mem_append.mpr hdigits) hc)
    hexponent]
  dsimp only
  rw [hcut]
  dsimp only
  rw [if_neg (mt (isEmpty_iff_of_digits hbefore hafter).mp hne),
    (digits?_eq_some_iff (by decide)).mpr hbefore, (digits?_eq_some_iff (by decide)).mpr hafter,
    readDecimalExponent_of_part hexponent]
  rfl

/-- Whatever is read without being a name is in digits. -/
theorem exists_decimalForm {d : Decimal} (h : readDecimal body = some d) :
    ∃ before after e, DecimalForm body before after e := by
  rcases hcut : cutAt (fun c => c == 'e' || c == 'E') body with ⟨places, exponent?⟩
  rcases hcut' : cutAt (· == '.') places with ⟨integer, fraction?⟩
  have hcases := eq_of_cutAt (fun c => c == 'e' || c == 'E') body
  unfold Binary64.readDecimal at h
  rw [hcut] at h hcases
  dsimp only at h hcases
  rw [hcut'] at h
  dsimp only at h
  split at h
  · cases h
  · rename_i hne
    simp only [Option.bind_eq_bind, Option.bind_eq_some_iff,
      digits?_eq_some_iff (show 10 ≤ 16 by decide)] at h
    obtain ⟨before, hbefore, after, hafter, e, he, -⟩ := h
    have hne' := mt (isEmpty_iff_of_digits hbefore hafter).mpr hne
    rw [forall₂_ten_iff] at hbefore hafter
    have hplaces := places_of_cutAt hcut' hbefore.1 hafter.1
    have hdigits := List.forall_mem_append.mpr ⟨hbefore.2, hafter.2⟩
    refine ⟨before, after, e, ?_⟩
    -- The cut leaves the whole body if there is no exponent, and its two sides otherwise.
    rcases hcases with ⟨rfl, hbody⟩ | ⟨c, rest, hc, rfl, hbody⟩
    · cases he
      have hform := DecimalForm.intro hplaces hdigits hne' .none
      rwa [List.append_nil, ← hbody] at hform
    · rw [hbody]
      exact .intro hplaces hdigits hne' (decimalExponent_of_read hc he)

/-! ## The number that is read -/

namespace Decimal

/-- A positive number has as many digits as it needs. -/
theorem digitCount_bounds {n : ℕ} (hn : n ≠ 0) :
    (10 : ℚ) ^ ((digitCount n : ℤ) - 1) ≤ n ∧ (n : ℚ) < 10 ^ (digitCount n : ℤ) := by
  have hpos : 0 < digitCount n := Nat.length_toDigits_pos
  have hle : ∀ k, 0 < k → (digitCount n ≤ k ↔ n < 10 ^ k) :=
    fun k hk => Nat.length_toDigits_le_iff (by decide) hk
  constructor
  · obtain ⟨k, hk⟩ : ∃ k, digitCount n = k + 1 := ⟨digitCount n - 1, by omega⟩
    -- One digit less would not do, unless it is the only one.
    have hlow : 10 ^ k ≤ n := by
      rcases Nat.eq_zero_or_pos k with rfl | hkpos
      · omega
      · exact Nat.le_of_not_lt (mt (hle k hkpos).mpr (by omega))
    rw [hk, Nat.cast_add, Nat.cast_one, add_sub_cancel_right, zpow_natCast]
    exact_mod_cast hlow
  · rw [zpow_natCast]
    exact_mod_cast (hle _ hpos).mp le_rfl

/-- The exact value of a decimal number. -/
def value (d : Decimal) : ℚ :=
  d.digits * 10 ^ d.exponent

theorem ten_zpow_pos (e : ℤ) : (0 : ℚ) < 10 ^ e :=
  zpow_pos (by norm_num) e

variable {d : Decimal}

/-- A number that starts far before the point is past every finite double. -/
theorem value_ge_of_top (hdigits : d.digits ≠ 0)
    (htop : 311 < (digitCount d.digits : ℤ) + d.exponent) : 2 ^ (1024 : ℤ) ≤ d.value := by
  have hpower : 2 ^ 1024 ≤ 10 ^ 311 := by decide +kernel
  calc (2 : ℚ) ^ (1024 : ℤ) ≤ 10 ^ (311 : ℤ) := by
        rw [zpow_ofNat, zpow_ofNat]
        exact_mod_cast hpower
    _ ≤ 10 ^ ((digitCount d.digits : ℤ) - 1 + d.exponent) :=
        zpow_le_zpow_right₀ (by norm_num) (by omega)
    _ = 10 ^ ((digitCount d.digits : ℤ) - 1) * 10 ^ d.exponent := zpow_add₀ (by norm_num) _ _
    _ ≤ d.digits * 10 ^ d.exponent :=
        mul_le_mul_of_nonneg_right (digitCount_bounds hdigits).1 (ten_zpow_pos _).le

/-- A number that starts far behind the point is nearer to zero than to any other double. -/
theorem value_le_of_top (hdigits : d.digits ≠ 0)
    (htop : (digitCount d.digits : ℤ) + d.exponent < -330) : d.value ≤ 2 ^ (-1075 : ℤ) := by
  have hpower : 2 ^ 1075 ≤ 10 ^ 331 := by decide +kernel
  calc d.digits * (10 : ℚ) ^ d.exponent
      ≤ 10 ^ (digitCount d.digits : ℤ) * 10 ^ d.exponent :=
        mul_le_mul_of_nonneg_right (digitCount_bounds hdigits).2.le (ten_zpow_pos _).le
    _ = 10 ^ ((digitCount d.digits : ℤ) + d.exponent) := (zpow_add₀ (by norm_num) _ _).symm
    _ ≤ 10 ^ (-331 : ℤ) := zpow_le_zpow_right₀ (by norm_num) (by omega)
    _ ≤ 2 ^ (-1075 : ℤ) := by
        rw [zpow_neg, zpow_neg, zpow_ofNat, zpow_ofNat]
        refine inv_anti₀ (by positivity) ?_
        exact_mod_cast hpower

theorem nearest_of_nonneg (negative : Bool) (h : 0 ≤ d.exponent) :
    Nearest d.value (round negative (d.digits * Nat.pow 10 d.exponent.toNat * unit) 1) := by
  have hround := nearest_round negative (d.digits * Nat.pow 10 d.exponent.toNat * unit) Nat.one_pos
  have hexponent : (10 : ℚ) ^ d.exponent = 10 ^ d.exponent.toNat := by
    rw [← zpow_natCast, Int.toNat_of_nonneg h]
  rwa [Nat.cast_one, div_one, Nat.cast_mul, mul_div_cancel_right₀ _ unit_pos_rat.ne', Nat.cast_mul,
    Nat.pow_eq, Nat.cast_pow, Nat.cast_ofNat, ← hexponent] at hround

theorem nearest_of_neg (negative : Bool) (h : ¬0 ≤ d.exponent) :
    Nearest d.value (round negative (d.digits * unit) (Nat.pow 10 (-d.exponent).toNat)) := by
  have hround := nearest_round negative (d.digits * unit)
    (Nat.pow_pos (n := (-d.exponent).toNat) (show 0 < 10 by decide))
  have hexponent : (10 : ℚ) ^ d.exponent = (10 ^ (-d.exponent).toNat)⁻¹ := by
    rw [← zpow_natCast, Int.toNat_of_nonneg (by omega), zpow_neg, inv_inv]
  rwa [Nat.cast_mul, mul_div_right_comm, mul_div_cancel_right₀ _ unit_pos_rat.ne', Nat.cast_pow,
    Nat.cast_ofNat, div_eq_mul_inv, ← hexponent] at hround

/-- The double made of a decimal number is nearest to it, and has the sign. -/
theorem nearest_toBinary64 (negative : Bool) (d : Decimal) :
    Nearest d.value (d.toBinary64 negative) ∧ (d.toBinary64 negative).isNegative = negative := by
  have hzero : (zero negative).isNegative = negative := isNegative_ofMagnitude negative (by decide)
  have hinfinity : (infinity negative).isNegative = negative :=
    isNegative_ofMagnitude negative (by decide)
  have hnonneg : 0 ≤ d.value := mul_nonneg (Nat.cast_nonneg _) (ten_zpow_pos _).le
  unfold toBinary64
  dsimp only
  split
  · rename_i hdigits
    have hvalue : d.value ≤ 2 ^ (-1075 : ℤ) := by
      rw [value, hdigits, Nat.cast_zero, zero_mul]
      exact (zpow_pos two_pos _).le
    exact ⟨nearest_zero negative hnonneg hvalue, hzero⟩
  · rename_i hdigits
    split
    · rename_i htop
      exact ⟨nearest_infinity negative (value_ge_of_top hdigits htop), hinfinity⟩
    · split
      · rename_i htop
        exact ⟨nearest_zero negative hnonneg (value_le_of_top hdigits htop), hzero⟩
      · split
        · rename_i hsign
          exact ⟨nearest_of_nonneg negative hsign, isNegative_round ..⟩
        · rename_i hsign
          exact ⟨nearest_of_neg negative hsign, isNegative_round ..⟩

end Decimal

/-- The digits after the point lower the exponent. -/
theorem decimalValue_eq (before after : List ℕ) (e : ℤ) :
    decimalValue before after e
      = Decimal.value ⟨valueOf 10 (before ++ after), e - after.length⟩ := by
  rw [decimalValue, Decimal.value, valueOf_eq_ofDigits, zpow_sub₀ (by norm_num), zpow_natCast,
    div_mul_eq_mul_div, mul_div_assoc]

/-- A body in digits is read as the number nearest to its value, and as no other one. -/
theorem DecimalForm.read_eq_some_iff (h : DecimalForm body before after e) :
    (Binary64.readDecimal body).map (·.toBinary64 negative) = some x ↔
      x.isNegative = negative ∧ Nearest (decimalValue before after e) x := by
  obtain ⟨hnearest, hsign⟩ := Decimal.nearest_toBinary64 negative
    ⟨valueOf 10 (before ++ after), e - after.length⟩
  rw [h.readDecimal, Option.map_some, Option.some.injEq, decimalValue_eq]
  constructor
  · rintro rfl
    exact ⟨hsign, hnearest⟩
  · rintro ⟨hsign', hx⟩
    exact eq_of_magnitude (hsign.trans hsign'.symm) (hnearest.unique hx)

/-- What is read without blanks and underscores: a sign, and a name or digits. -/
theorem ofDecimal?_eq_some_iff :
    ofDecimal? cs = some x ↔ ∃ sign negative body, cs = sign ++ body ∧ Sign sign negative ∧
      (NamedForm negative body x ∨ ∃ before after e, DecimalForm body before after e ∧
        x.isNegative = negative ∧ Nearest (decimalValue before after e) x) := by
  unfold ofDecimal?
  constructor
  · rcases htake : takeSign cs with ⟨negative, body⟩
    obtain ⟨sign, hsign, hcs⟩ := exists_sign htake
    intro h
    refine ⟨sign, negative, body, hcs, hsign, ?_⟩
    rcases (Option.orElse_eq_some _ _ _).mp h with hnamed | ⟨-, hread⟩
    · exact .inl (readNamed_eq_some_iff.mp hnamed)
    · obtain ⟨d, hd, -⟩ := Option.map_eq_some_iff.mp hread
      obtain ⟨before, after, e, hform⟩ := exists_decimalForm hd
      exact .inr ⟨before, after, e, hform, hform.read_eq_some_iff.mp hread⟩
  · rintro ⟨sign, negative, body, rfl, hsign, hnamed | ⟨before, after, e, hform, hx⟩⟩
    · rw [takeSign_of_bare hsign hnamed.bare]
      simp only [readNamed_eq_some_iff.mpr hnamed]
      rfl
    · rw [takeSign_of_bare hsign hform.bare]
      simp only [hform.readNamed, hform.read_eq_some_iff.mpr hx]
      rfl

end FrameCode.Binary64

namespace FrameCode.Literal

open FrameCode.Text FrameCode.Binary64

variable {cs text : List Char} {x : Binary64}

/-! ## Underscores -/

/-- Every underscore of a text stands between two digits. -/
def Spaced (cs : List Char) : Prop :=
  ∀ before after, cs = before ++ '_' :: after →
    before.getLast?.any isDigit = true ∧ after.head?.any isDigit = true

/-- The literals in decimal digits, with what they are made of once their underscores are left
out. -/
def DecimalLiteral (text : List Char) (negative : Bool) (before after : List ℕ) (e : ℤ) : Prop :=
  ∃ spaced sign body, Surrounds text spaced ∧ Spaced spaced ∧
    spaced.filter (· != '_') = sign ++ body ∧ Sign sign negative ∧ DecimalForm body before after e

/-- The character before a text takes part as if it were the last one before its underscores. -/
theorem underscoresSeparate_iff (previous : Option Char) (cs : List Char) :
    underscoresSeparate previous cs = true ↔ ∀ before after, cs = before ++ '_' :: after →
      (before.getLast?.or previous).any isDigit = true ∧ after.head?.any isDigit = true := by
  induction cs generalizing previous with
  | nil => simp [underscoresSeparate]
  | cons c cs ih =>
    have hlast : ∀ before : List Char,
        (c :: before).getLast?.or previous = before.getLast?.or (some c) := by
      intro before
      rw [List.getLast?_cons]
      cases before.getLast? <;> rfl
    rw [underscoresSeparate, Bool.and_eq_true, ih, Bool.or_eq_true, bne_iff_ne, Bool.and_eq_true]
    constructor
    · rintro ⟨hc, hrest⟩ before after heq
      cases before with
      | nil =>
        obtain ⟨rfl, rfl⟩ := List.cons.inj heq
        exact hc.resolve_left (fun hne => hne rfl)
      | cons b before =>
        obtain ⟨rfl, hcs⟩ := List.cons.inj heq
        rw [hlast]
        exact hrest before after hcs
    · intro h
      constructor
      · by_cases hc : c = '_'
        · subst hc
          exact .inr (h [] cs rfl)
        · exact .inl hc
      · intro before after hcs
        subst hcs
        rw [← hlast]
        exact h (c :: before) after rfl

theorem underscoresSeparate_iff_spaced : underscoresSeparate none cs = true ↔ Spaced cs := by
  rw [underscoresSeparate_iff]
  simp only [Option.or_none]
  rfl

theorem filter_of_not_mem (h : '_' ∉ cs) : cs.filter (· != '_') = cs := by
  rw [List.filter_eq_self]
  intro c hc
  rw [bne_iff_ne]
  rintro rfl
  exact h hc

theorem spaced_of_not_mem (h : '_' ∉ cs) : Spaced cs := by
  rintro before after rfl
  exact absurd (List.mem_append_right before (List.mem_cons_self ..)) h

/-- Where there is no digit, there is no underscore. -/
theorem Spaced.not_mem (h : Spaced cs) (hdigit : ∀ c ∈ cs.filter (· != '_'), isDigit c = false) :
    '_' ∉ cs := by
  intro hmem
  obtain ⟨before, after, rfl⟩ := List.append_of_mem hmem
  obtain ⟨hbefore, -⟩ := h before after rfl
  rcases hlast : before.getLast? with _ | c
  · rw [hlast] at hbefore
    cases hbefore
  · -- The character before an underscore is a digit, and is not left out.
    rw [hlast, Option.any_some] at hbefore
    have hc : c ∈ (before ++ '_' :: after).filter (· != '_') := by
      rw [List.mem_filter, bne_iff_ne]
      refine ⟨List.mem_append_left _ (List.mem_of_getLast? hlast), ?_⟩
      rintro rfl
      exact absurd hbefore (by decide)
    rw [hdigit c hc] at hbefore
    cases hbefore

/-! ## Literals -/

/-- Names have neither digits nor underscores. -/
theorem letters_of_named {sign body : List Char} {negative : Bool} (hsign : Sign sign negative)
    (h : NamedForm negative body x) {c : Char} (hc : c ∈ sign ++ body) :
    isDigit c = false ∧ c ≠ '_' := by
  have hletters : ∀ c ∈ ['i', 'n', 'f', 't', 'y', 'a'], (isDigit c = false ∧ c ≠ '_') ∧
      isDigit c.toUpper = false ∧ c.toUpper ≠ '_' := by
    simp only [List.forall_mem_cons, List.not_mem_nil, false_imp_iff, implies_true]
    decide
  rcases List.mem_append.mp hc with hc | hc
  · cases hsign with
    | none => cases hc
    | plus =>
      rw [List.mem_singleton.mp hc]
      decide
    | minus =>
      rw [List.mem_singleton.mp hc]
      decide
  · obtain ⟨hsmall, hcapital⟩ := hletters _ (h.mem.2 _ (List.mem_map_of_mem hc))
    rcases eq_or_eq_toUpper c with heq | heq
    · rw [heq]
      exact hsmall
    · rw [heq]
      exact hcapital

theorem decimalFloat?_of_named (h : NamedLiteral text x) :
    decimalFloat? (trim text) = some x := by
  obtain ⟨sign, negative, body, hsign, hbody, htext⟩ := h
  have hunderscore : '_' ∉ sign ++ body := fun hmem => (letters_of_named hsign hbody hmem).2 rfl
  have hspaced := underscoresSeparate_iff_spaced.mpr (spaced_of_not_mem hunderscore)
  rw [trim_of_bare hsign hbody.bare htext, decimalFloat?, if_pos hspaced,
    filter_of_not_mem hunderscore, ofDecimal?_eq_some_iff]
  exact ⟨sign, negative, body, rfl, hsign, .inl hbody⟩

/-- Underscores are no blanks either, so trimming leaves them where they are. -/
theorem trim_of_spaced {spaced sign body : List Char} {negative : Bool}
    (htext : Surrounds text spaced) (hfilter : spaced.filter (· != '_') = sign ++ body)
    (hsign : Sign sign negative) (hbody : Bare body) : trim text = spaced := by
  refine trim_of_surrounds htext (fun c hc => ?_) ?_
  · by_cases hunderscore : c = '_'
    · rw [hunderscore]
      rfl
    · have hmem : c ∈ spaced.filter (· != '_') :=
        List.mem_filter.mpr ⟨hc, bne_iff_ne.mpr hunderscore⟩
      rw [hfilter] at hmem
      rcases List.mem_append.mp hmem with hmem | hmem
      · exact hsign.isBlank hmem
      · exact hbody.isBlank c hmem
  · rintro rfl
    obtain ⟨c, rest, rfl, -⟩ := hbody.head
    simp at hfilter

/-- **Decimal notation.** A text is read as a number exactly if it names this number, or it is a
literal in decimal digits to whose value no number of its sign is nearer. -/
theorem decimalFloat?_eq_some_iff :
    decimalFloat? (trim text) = some x ↔ NamedLiteral text x ∨
      ∃ before after e, DecimalLiteral text x.isNegative before after e ∧
        Nearest (decimalValue before after e) x := by
  constructor
  · intro h
    unfold decimalFloat? at h
    split at h
    · rename_i hspaced
      rw [underscoresSeparate_iff_spaced] at hspaced
      obtain ⟨sign, negative, body, hfilter, hsign, hread⟩ := ofDecimal?_eq_some_iff.mp h
      rcases hread with hnamed | ⟨before, after, e, hform, rfl, hx⟩
      · -- A name has no underscores that could have been left out.
        left
        have hunderscore := hspaced.not_mem fun c hc =>
          (letters_of_named hsign hnamed (hfilter ▸ hc)).1
        rw [filter_of_not_mem hunderscore] at hfilter
        exact ⟨sign, negative, body, hsign, hnamed, hfilter ▸ surrounds_trim text⟩
      · exact .inr ⟨before, after, e,
          ⟨trim text, sign, body, surrounds_trim text, hspaced, hfilter, hsign, hform⟩, hx⟩
    · cases h
  · rintro (hnamed | ⟨before, after, e, ⟨spaced, sign, body, htext, hspaced, hfilter, hsign, hform⟩,
      hx⟩)
    · exact decimalFloat?_of_named hnamed
    · rw [trim_of_spaced htext hfilter hsign hform.bare, decimalFloat?,
        if_pos (underscoresSeparate_iff_spaced.mpr hspaced), ofDecimal?_eq_some_iff]
      exact ⟨sign, _, body, hfilter, hsign, .inr ⟨before, after, e, hform, rfl, hx⟩⟩

/-- There is a number nearest to every value, so a literal is read as some number. -/
theorem DecimalLiteral.exists_read {negative : Bool} {before after : List ℕ} {e : ℤ}
    (h : DecimalLiteral text negative before after e) :
    ∃ x, decimalFloat? (trim text) = some x := by
  obtain ⟨hnearest, hsign⟩ := Decimal.nearest_toBinary64 negative
    ⟨valueOf 10 (before ++ after), e - after.length⟩
  rw [← decimalValue_eq] at hnearest
  exact ⟨_, decimalFloat?_eq_some_iff.mpr (.inr ⟨before, after, e, by rwa [hsign], hnearest⟩)⟩

end FrameCode.Literal
