import FrameCode.Literal.Float
import FrameCode.Proofs.Digits
import FrameCode.Proofs.Quanta

/-!
# The hexadecimal notation read back

Every number is read back from its own notation. The notation of a finite number is a sign and some
figures (`Figures`): a leading digit, digits after the point and a decimal exponent. Three things
have to fit together.

* The text reaches the reader of hexadecimal notation whole: it has no blanks to lose, and the mark
  `0x` keeps it from being taken for decimal notation.
* The digits are few enough for all of them to be kept (`Significand.ofDigits_eq`), so what is read
  is exactly the significand that was written, and its place (`Figures.readHexMagnitude_text`).
* The figures measure the number in each of the three forms of a finite notation: zero, subnormal
  and normal (`Figures.exists_measures`). Scaling the significand to its place is then exact, and a
  size belongs to one number only.
-/

namespace FrameCode.Text

variable {c : Char} {cs : List Char}

/-- A text without blanks stays as it is. -/
theorem trim_of_forall (h : ∀ c ∈ cs, isBlank c = false) : trim cs = cs := by
  have hdrop : ∀ ds : List Char, (∀ c ∈ ds, isBlank c = false) → ds.dropWhile isBlank = ds := by
    intro ds hds
    cases ds with
    | nil => rfl
    | cons d ds => rw [List.dropWhile_cons_of_neg (by simp [hds d])]
  unfold trim dropEndBlanks
  rw [hdrop cs h, hdrop cs.reverse (by simpa using h), List.reverse_reverse]

theorem isBlank_of_isDigit (h : isDigit c = true) : isBlank c = false := by
  have hrange := isDigit_iff.mp h
  simp only [isBlank, Bool.or_eq_false_iff, Bool.and_eq_false_imp, decide_eq_true_eq,
    decide_eq_false_iff_not, not_le, beq_eq_false_iff_ne, ne_eq]
  omega

end FrameCode.Text

namespace FrameCode.Binary64

open FrameCode.Text

variable {c : Char} {cs : List Char}

/-! ## Hexadecimal digits -/

theorem digitValue?_hexDigit {d : Nat} (h : d < 16) : digitValue? 16 (hexDigit d) = some d := by
  have hall : ∀ d < 16, digitValue? 16 (hexDigit d) = some d := by decide
  exact hall d h

/-- No hexadecimal digit is a blank or one of the marks of the notation. -/
theorem hexDigit_ne_mark {d : Nat} (h : d < 16) :
    isBlank (hexDigit d) = false ∧ hexDigit d ≠ '.' ∧ hexDigit d ≠ 'p' ∧ hexDigit d ≠ 'P' := by
  have hall : ∀ d < 16, isBlank (hexDigit d) = false ∧ hexDigit d ≠ '.' ∧ hexDigit d ≠ 'p' ∧
      hexDigit d ≠ 'P' := by decide
  exact hall d h

theorem exists_of_mem_hexDigits {width n : Nat} (h : c ∈ hexDigits width n) :
    ∃ d < 16, c = hexDigit d := by
  induction width generalizing n with
  | zero => cases h
  | succ width ih =>
    rcases List.mem_append.mp h with h | h
    · exact ih h
    · exact ⟨n % 16, Nat.mod_lt _ (by decide), List.mem_singleton.mp h⟩

/-- Digits written for a number are read as digits that denote it. -/
theorem digits?_hexDigits {width n : Nat} (hn : n < 16 ^ width) :
    ∃ ds, digits? 16 (hexDigits width n) = some ds ∧ ds.length = width ∧ (∀ d ∈ ds, d < 16) ∧
      valueOf 16 ds = n := by
  induction width generalizing n with
  | zero =>
    have hzero : n = 0 := by simpa using hn
    exact ⟨[], rfl, rfl, by simp, hzero.symm⟩
  | succ width ih =>
    have hlast : n % 16 < 16 := Nat.mod_lt _ (by decide)
    have hquotient : n / 16 < 16 ^ width := by
      rw [Nat.pow_succ] at hn
      exact Nat.div_lt_of_lt_mul (by rwa [Nat.mul_comm])
    obtain ⟨ds, hds, hlength, hlt, hvalue⟩ := ih hquotient
    refine ⟨ds ++ [n % 16], ?_, by simp [hlength], ?_, ?_⟩
    · unfold digits? at hds ⊢
      simp [hexDigits, List.mapM_append, hds, digitValue?_hexDigit hlast]
    · intro d hd
      rcases List.mem_append.mp hd with hd | hd
      · exact hlt d hd
      · rwa [List.mem_singleton.mp hd]
    · unfold valueOf at hvalue ⊢
      rw [List.foldl_append, hvalue]
      exact Nat.div_add_mod' n 16

/-! ## Collecting digits -/

/-- Digits read after others count in their own places. -/
theorem foldl_digits (base m : Nat) (ds : List Nat) :
    ds.foldl (fun n d => n * base + d) m = m * base ^ ds.length + valueOf base ds := by
  unfold valueOf
  induction ds generalizing m with
  | nil => simp
  | cons d ds ih =>
    rw [List.foldl_cons, List.foldl_cons, ih (m * base + d), ih (0 * base + d), List.length_cons,
      pow_succ]
    ring

namespace Significand

theorem hasRoom_of_lt {s : Significand} (h : s.mantissa < 16 ^ 14) : s.hasRoom = true := by
  have hbits : 16 ^ 14 = 2 ^ 56 := by decide
  unfold hasRoom
  rw [Nat.shiftRight_eq_div_pow, Nat.div_eq_of_lt (by omega)]
  rfl

/-- As long as no more than fifteen digits have been read, none is left out: a mantissa of fourteen
digits still has room for one. The induction is on the digits, `count` is how many came before. -/
theorem foldl_pushFraction {count m : Nat} {e : Int} {ds : List Nat} (hm : m < 16 ^ count)
    (hds : ∀ d ∈ ds, d < 16) (hcount : count + ds.length ≤ 15) :
    ds.foldl pushFraction ⟨m, e, false⟩
      = ⟨ds.foldl (fun n d => n * 16 + d) m, e - 4 * ds.length, false⟩ := by
  induction ds generalizing count m e with
  | nil => simp
  | cons d ds ih =>
    rw [List.length_cons] at hcount
    have hd : d < 16 := hds d (List.mem_cons_self ..)
    have hroom : m < 16 ^ 14 := hm.trans_le (Nat.pow_le_pow_right (by decide) (by omega))
    have hpush : pushFraction ⟨m, e, false⟩ d = ⟨m * 16 + d, e - 4, false⟩ := by
      unfold pushFraction
      rw [if_pos (hasRoom_of_lt hroom)]
    have hnext : m * 16 + d < 16 ^ (count + 1) := by
      rw [pow_succ]
      omega
    rw [List.foldl_cons, hpush,
      ih hnext (fun d' hd' => hds d' (List.mem_cons_of_mem _ hd')) (by omega), List.foldl_cons,
      List.length_cons]
    congr 1
    push_cast
    ring

/-- One digit before the point and at most fourteen after it are all kept. -/
theorem ofDigits_eq {lead : Nat} {ds : List Nat} (hlead : lead < 16) (hds : ∀ d ∈ ds, d < 16)
    (hlength : ds.length ≤ 14) :
    ofDigits [lead] ds = ⟨lead * 16 ^ ds.length + valueOf 16 ds, -4 * ds.length, false⟩ := by
  have hfirst : [lead].foldl pushInteger empty = ⟨lead, 0, false⟩ := by
    simp [pushInteger, hasRoom, empty]
  have hone : lead < 16 ^ 1 := by omega
  unfold ofDigits
  rw [hfirst, foldl_pushFraction hone hds (by omega), foldl_digits]
  congr 1
  ring

end Significand

/-! ## The figures of a notation -/

/-- The figures of a finite number in hexadecimal notation: a leading digit, the digits after the
point as a number of a given width, and a binary exponent. They are few enough to be read without
loss. -/
structure Figures where
  lead : Nat
  width : Nat
  fraction : Nat
  exponent : Int
  lead_lt : lead < 16
  width_le : width ≤ 14
  fraction_lt : fraction < 16 ^ width
  exponent_le : exponent.natAbs ≤ exponentBound

namespace Figures

variable (f : Figures)

/-- The digits without the point. -/
def significand : Nat :=
  f.lead * 16 ^ f.width + f.fraction

/-- What is written before the exponent mark. -/
def digitsText : List Char :=
  hexDigit f.lead :: '.' :: hexDigits f.width f.fraction

/-- The notation after the sign. -/
def text : List Char :=
  '0' :: 'x' :: (f.digitsText ++ 'p' :: (signedDecimal f.exponent).toList)

/-- The value that the figures stand for, as it is computed. -/
def value : Binary64 :=
  scale (ofNat false f.significand) (f.exponent - 4 * f.width)

end Figures

/-- A notation with a minus in front if it is negative. -/
def withSign (negative : Bool) (cs : List Char) : List Char :=
  if negative then '-' :: cs else cs

theorem withSign_append (negative : Bool) (cs ds : List Char) :
    withSign negative cs ++ ds = withSign negative (cs ++ ds) := by
  cases negative with
  | true => rfl
  | false => rfl

/-! ## Reading the parts -/

/-- The digits of an exponent within the bound are read as this exponent. -/
theorem readExponent_of_takeSign {negative : Bool} {n : Nat}
    (hsign : takeSign cs = (negative, n.repr.toList)) (hn : n ≤ exponentBound) :
    readExponent (min exponentBound) cs = some (if negative then -(n : Int) else (n : Int)) := by
  obtain ⟨ds, hds, hvalue⟩ := Option.map_eq_some_iff.mp (digits?_repr n)
  have hnonempty : ¬n.repr.toList.isEmpty = true :=
    mt List.isEmpty_iff.mp (repr_toList_ne_nil n)
  unfold readExponent
  rw [hsign]
  dsimp only
  rw [if_neg hnonempty, hds, Option.map_some, hvalue, Nat.min_eq_right hn]

theorem signedDecimal_cases (z : Int) :
    (∃ n : Nat, z = n ∧ (signedDecimal z).toList = '+' :: n.repr.toList) ∨
      (∃ n : Nat, z = -n ∧ (signedDecimal z).toList = '-' :: n.repr.toList) := by
  cases z with
  | ofNat n => exact .inl ⟨n, rfl, by simp [signedDecimal]⟩
  | negSucc n => exact .inr ⟨n + 1, Int.negSucc_eq n, by simp [signedDecimal]⟩

theorem readExponent_signedDecimal {z : Int} (hz : z.natAbs ≤ exponentBound) :
    readExponent (min exponentBound) (signedDecimal z).toList = some z := by
  rcases signedDecimal_cases z with ⟨n, rfl, htext⟩ | ⟨n, rfl, htext⟩
  · rw [htext, readExponent_of_takeSign (n := n) rfl (by omega)]
    rfl
  · rw [htext, readExponent_of_takeSign (n := n) rfl (by omega)]
    rfl

theorem Figures.mem_digitsText {f : Figures} (h : c ∈ f.digitsText) :
    c = '.' ∨ ∃ d < 16, c = hexDigit d := by
  rcases List.mem_cons.mp h with rfl | h
  · exact .inr ⟨f.lead, f.lead_lt, rfl⟩
  · rcases List.mem_cons.mp h with rfl | h
    · exact .inl rfl
    · exact .inr (exists_of_mem_hexDigits h)

theorem Figures.readSignificand_digitsText (f : Figures) :
    readSignificand f.digitsText = some ⟨f.significand, -4 * f.width, false⟩ := by
  obtain ⟨ds, hds, hlength, hlt, hvalue⟩ := digits?_hexDigits f.fraction_lt
  have hcut : cutAt (· == '.') f.digitsText
      = ([hexDigit f.lead], some (hexDigits f.width f.fraction)) := by
    have hlead : ∀ d ∈ [hexDigit f.lead], (d == '.') = false := by
      simpa using (hexDigit_ne_mark f.lead_lt).2.1
    exact cutAt_append hlead rfl
  have hbefore : digits? 16 [hexDigit f.lead] = some [f.lead] := by
    simp [digits?, digitValue?_hexDigit f.lead_lt]
  have hdigits := Significand.ofDigits_eq f.lead_lt hlt (by rw [hlength]; exact f.width_le)
  unfold readSignificand
  rw [hcut]
  simp [hbefore, hds, hdigits, hlength, hvalue, Figures.significand]

/-- Figures are read as their value. -/
theorem Figures.readHexMagnitude_text (f : Figures) :
    readHexMagnitude (min exponentBound) f.text = some f.value := by
  have hcut : cutAt (fun c => c == 'p' || c == 'P')
      (f.digitsText ++ 'p' :: (signedDecimal f.exponent).toList)
        = (f.digitsText, some (signedDecimal f.exponent).toList) := by
    refine cutAt_append (fun c hc => ?_) rfl
    rcases f.mem_digitsText hc with rfl | ⟨d, hd, rfl⟩
    · rfl
    · obtain ⟨-, -, hp, hP⟩ := hexDigit_ne_mark hd
      simp [hp, hP]
  have hexponent : -4 * (f.width : Int) + f.exponent = f.exponent - 4 * f.width := by ring
  unfold readHexMagnitude
  simp only [Figures.text, dropHexMark, hcut, f.readSignificand_digitsText,
    readExponent_signedDecimal f.exponent_le, Option.bind_eq_bind, Option.bind_some,
    Significand.merged, hexponent]
  rfl

/-! ## From the text to the reader of hexadecimal notation -/

theorem isBlank_signedDecimal {z : Int} (h : c ∈ (signedDecimal z).toList) : isBlank c = false := by
  have hchar : c = '+' ∨ c = '-' ∨ isDigit c = true := by
    rcases signedDecimal_cases z with ⟨n, -, htext⟩ | ⟨n, -, htext⟩ <;>
    · rw [htext] at h
      rcases List.mem_cons.mp h with rfl | h
      · simp
      · exact .inr (.inr (isDigit_of_mem_repr h))
  rcases hchar with rfl | rfl | hdigit
  · rfl
  · rfl
  · exact isBlank_of_isDigit hdigit

theorem Figures.isBlank_text {f : Figures} (h : c ∈ f.text) : isBlank c = false := by
  have hdigits : ∀ c ∈ f.digitsText, isBlank c = false := by
    intro c hc
    rcases f.mem_digitsText hc with rfl | ⟨d, hd, rfl⟩
    · rfl
    · exact (hexDigit_ne_mark hd).1
  unfold Figures.text at h
  simp only [List.mem_cons, List.mem_append] at h
  rcases h with rfl | rfl | h | rfl | h
  · rfl
  · rfl
  · exact hdigits c h
  · rfl
  · exact isBlank_signedDecimal h

theorem trim_withSign {negative : Bool} (h : ∀ c ∈ cs, isBlank c = false) :
    trim (withSign negative cs) = withSign negative cs := by
  refine trim_of_forall ?_
  cases negative with
  | true =>
    intro c hc
    rcases List.mem_cons.mp hc with rfl | hc
    · rfl
    · exact h c hc
  | false => exact h

theorem takeSign_withSign (negative : Bool) (cs : List Char) :
    takeSign (withSign negative ('0' :: cs)) = (negative, '0' :: cs) := by
  cases negative with
  | true => rfl
  | false => rfl

theorem readNamed_zero (negative : Bool) (cs : List Char) :
    readNamed negative ('0' :: cs) = none := by
  simp [readNamed, sameLetters, foldCase]

/-- The letter of the mark is no decimal digit, and stands before any point or exponent. -/
theorem readDecimal_hexMark (cs : List Char) : readDecimal ('0' :: 'x' :: cs) = none := by
  -- Neither cut reaches the mark, so it is still at the head of what should be the integer part.
  have hcut : ∀ p : Char → Bool, p '0' = false → p 'x' = false → ∀ ds,
      (cutAt p ('0' :: 'x' :: ds)).1 = '0' :: 'x' :: (cutAt p ds).1 := by
    intro p hzero hx ds
    simp [cutAt, hzero, hx]
  have hdigits : ∀ ds : List Char, digits? 10 ('0' :: 'x' :: ds) = none := fun ds =>
    digits?_eq_none (c := 'x') (by simp) (by decide)
  unfold readDecimal
  simp [hcut, hdigits]

theorem decimalFloat?_hexMark (negative : Bool) (cs : List Char) :
    Literal.decimalFloat? (withSign negative ('0' :: 'x' :: cs)) = none := by
  have hfilter : (withSign negative ('0' :: 'x' :: cs)).filter (· != '_')
      = withSign negative ('0' :: 'x' :: cs.filter (· != '_')) := by
    cases negative with
    | true => simp [withSign]
    | false => simp [withSign]
  unfold Literal.decimalFloat? ofDecimal?
  rw [hfilter, takeSign_withSign]
  simp [readNamed_zero, readDecimal_hexMark]

/-- A number with a minus in front if asked for. -/
def signed (negative : Bool) (x : Binary64) : Binary64 :=
  if negative then neg x else x

/-- Signed figures are a literal for their value. -/
theorem Figures.float?_text (f : Figures) (negative : Bool) :
    Literal.float? (withSign negative f.text) = some (signed negative f.value) := by
  -- The literal is trimmed for both notations, and once more by the reader of this one.
  have htrim : trim (withSign negative f.text) = withSign negative f.text :=
    trim_withSign fun _ => f.isBlank_text
  have hread := f.readHexMagnitude_text
  unfold Literal.float? ofHex? ofHexWith?
  rw [htrim, htrim]
  unfold Figures.text at *
  rw [decimalFloat?_hexMark, takeSign_withSign]
  simp [readNamed_zero, hread, signed]

/-! ## The figures of a number -/

variable {x : Binary64}

theorem fraction_lt (x : Binary64) : x.fraction < binade :=
  Nat.mod_lt x.magnitude (by decide)

theorem exponentField_lt (x : Binary64) : x.exponentField < 2048 := by
  have hlt := x.magnitude_lt
  unfold exponentField binade
  unfold signBit at hlt
  omega

namespace Figures

/-- The figures of the zeros. -/
def zero : Figures where
  lead := 0
  width := 1
  fraction := 0
  exponent := 0
  lead_lt := by decide
  width_le := by decide
  fraction_lt := by decide
  exponent_le := by decide

/-- The figures of a subnormal number. -/
def subnormal (x : Binary64) : Figures where
  lead := 0
  width := 13
  fraction := x.fraction
  exponent := -1022
  lead_lt := by decide
  width_le := by decide
  fraction_lt := x.fraction_lt
  exponent_le := by decide

/-- The figures of a normal number. -/
def normal (x : Binary64) : Figures where
  lead := 1
  width := 13
  fraction := x.fraction
  exponent := (x.exponentField : Int) - 1023
  lead_lt := by decide
  width_le := by decide
  fraction_lt := x.fraction_lt
  exponent_le := by
    have hlt := exponentField_lt x
    unfold exponentBound
    omega

/-- The figures of a finite number, in the form that it is written in. -/
def ofFinite (x : Binary64) : Figures :=
  if x.isZero then zero else if x.exponentField = 0 then subnormal x else normal x

/-- Figures that stand for a size in the range of the finite numbers. -/
structure Measures (f : Figures) (x : Binary64) (l : Nat) : Prop where
  lt : f.significand < 2 * binade
  le : l ≤ 2045
  exponent : f.exponent - 4 * f.width = (l : Int) - 1074
  quanta : x.quanta = f.significand * 2 ^ l

theorem zero_measures (h : x.isZero = true) : zero.Measures x 1070 := by
  have hmagnitude : x.magnitude = 0 := of_decide_eq_true h
  have hquanta : x.quanta = 0 := by
    simp [quanta, exponentField, Binary64.fraction, hmagnitude]
  have hsignificand : zero.significand = 0 := rfl
  refine ⟨by decide, by decide, by decide, ?_⟩
  rw [hquanta, hsignificand, Nat.zero_mul]

theorem subnormal_measures (h : x.exponentField = 0) : (subnormal x).Measures x 0 := by
  have hsignificand : (subnormal x).significand = x.fraction := by simp [significand, subnormal]
  have hlt := x.fraction_lt
  refine ⟨by omega, by decide, by simp [subnormal], ?_⟩
  simp [quanta, h, hsignificand]

theorem normal_measures (hfinite : x.isFinite = true) (h : x.exponentField ≠ 0) :
    (normal x).Measures x (x.exponentField - 1) := by
  have hsignificand : (normal x).significand = binade + x.fraction := by
    simp [significand, normal, binade]
  have hlt := x.fraction_lt
  have hfield : x.exponentField < 2047 := by
    have hword := isFinite_iff.mp hfinite
    unfold exponentField infinityWord binade at *
    omega
  refine ⟨by omega, by omega, ?_, ?_⟩
  · simp only [normal]
    omega
  · rw [quanta, if_neg h, hsignificand, Nat.shiftLeft_eq]

theorem exists_measures (h : x.isFinite = true) : ∃ l, (ofFinite x).Measures x l := by
  unfold ofFinite
  by_cases hzero : x.isZero = true
  · rw [if_pos hzero]
    exact ⟨_, zero_measures hzero⟩
  · rw [if_neg hzero]
    by_cases hfield : x.exponentField = 0
    · rw [if_pos hfield]
      exact ⟨_, subnormal_measures hfield⟩
    · rw [if_neg hfield]
      exact ⟨_, normal_measures h hfield⟩

/-- The value computed from the figures of a size has this size. -/
theorem Measures.value_counts {f : Figures} {l : Nat} (h : f.Measures x l) :
    Counts f.value f.significand l := by
  unfold value
  rw [h.exponent]
  exact (counts_ofNat h.lt).scale h.lt h.le

/-- The value of the figures of a number is the number without its sign. -/
theorem Measures.value_eq {f : Figures} {l : Nat} (h : f.Measures x l) (hx : x.isFinite = true) :
    f.value = ofMagnitude false x.magnitude := by
  have hmagnitude := magnitude_ofMagnitude false x.magnitude_lt
  refine h.value_counts.unique ⟨?_, isNegative_ofMagnitude false x.magnitude_lt, ?_⟩
  · rw [isFinite_iff, hmagnitude]
    exact isFinite_iff.mp hx
  · rw [quanta_eq_of_magnitude hmagnitude, h.quanta]

end Figures

/-- A number is its size with its sign. -/
theorem signed_ofMagnitude (x : Binary64) :
    signed x.isNegative (ofMagnitude false x.magnitude) = x := by
  have hlt := x.magnitude_lt
  cases hsign : x.isNegative with
  | true =>
    rw [signed, if_pos rfl, neg, isNegative_ofMagnitude false hlt, magnitude_ofMagnitude false hlt,
      Bool.not_false, ← hsign, ofMagnitude_magnitude]
  | false =>
    rw [signed, if_neg Bool.false_ne_true, ← hsign, ofMagnitude_magnitude]

/-- The notation of a finite number shows its figures. -/
theorem toHex_finite (h : x.isFinite = true) :
    x.toHex.toList = withSign x.isNegative (Figures.ofFinite x).text := by
  have hsign : (if x.isNegative then "-" else "").toList = withSign x.isNegative [] := by
    cases x.isNegative with
    | true => rfl
    | false => rfl
  unfold toHex Figures.ofFinite
  simp only [isNaN_of_isFinite h, isInfinite_of_isFinite h, Bool.false_eq_true, if_false]
  by_cases hzero : x.isZero = true
  · rw [if_pos hzero, if_pos hzero, String.toList_append, hsign, withSign_append]
    rfl
  · rw [if_neg hzero, if_neg hzero]
    by_cases hfield : x.exponentField = 0
    · have hmark : "0x0.".toList = ['0', 'x', hexDigit 0, '.'] := by decide
      have hexponent : "p-1022".toList = 'p' :: (signedDecimal (-1022)).toList := by decide
      rw [if_pos hfield, if_pos hfield]
      simp only [String.toList_append, String.toList_ofList, hsign, hmark, hexponent,
        withSign_append, List.cons_append, List.nil_append, Figures.text, Figures.digitsText,
        Figures.subnormal]
    · have hmark : "0x1.".toList = ['0', 'x', hexDigit 1, '.'] := by decide
      have hexponent : "p".toList = ['p'] := by decide
      rw [if_neg hfield, if_neg hfield]
      simp only [String.toList_append, String.toList_ofList, hsign, hmark, hexponent,
        withSign_append, List.append_assoc, List.cons_append, List.nil_append, Figures.text,
        Figures.digitsText, Figures.normal]

end FrameCode.Binary64

namespace FrameCode.Literal

open FrameCode.Binary64

variable {x : Binary64}

theorem float?_toHex_infinite (h : x.isInfinite = true) : float? x.toHex.toList = some x := by
  have hword : x.magnitude = infinityWord := of_decide_eq_true h
  have hnan : x.isNaN = false := by simp [isNaN, hword]
  have hx : infinity x.isNegative = x := by
    rw [infinity, ← hword, ofMagnitude_magnitude]
  have hread : ∀ negative : Bool,
      float? ((if negative then "-" else "") ++ "inf").toList = some (infinity negative) := by
    decide +kernel
  unfold toHex
  rw [hnan, h, if_neg Bool.false_ne_true, if_pos rfl, hread, hx]

theorem float?_toHex_finite (h : x.isFinite = true) : float? x.toHex.toList = some x := by
  obtain ⟨l, hmeasures⟩ := Figures.exists_measures h
  rw [toHex_finite h, Figures.float?_text, hmeasures.value_eq h, signed_ofMagnitude]

/-- **Round trip.** Every number is read back from its hexadecimal notation: bit for bit, unless it
is a NaN, and then as a NaN. -/
theorem float?_toHex (x : Binary64) :
    ∃ y, float? x.toHex.toList = some y ∧ (x.isNaN = false → y = x) ∧
      (x.isNaN = true → y.isNaN = true) := by
  by_cases hnan : x.isNaN = true
  · have htext : x.toHex = "nan" := by simp [toHex, hnan]
    have hread : float? "nan".toList = some nan := by decide +kernel
    exact ⟨nan, by rw [htext, hread], by simp [hnan], fun _ => by decide⟩
  · refine ⟨x, ?_, fun _ => rfl, fun h => absurd h hnan⟩
    by_cases hinf : x.isInfinite = true
    · exact float?_toHex_infinite hinf
    · have hfinite : x.isFinite = true := by
        simp only [isNaN, isInfinite, isFinite, decide_eq_true_eq] at *
        omega
      exact float?_toHex_finite hfinite

end FrameCode.Literal
