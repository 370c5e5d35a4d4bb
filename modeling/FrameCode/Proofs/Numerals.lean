import FrameCode.Proofs.Digits
import FrameCode.Proofs.HexNotation
import Mathlib.Data.List.Forall2
import Mathlib.Data.Nat.Digits.Defs

/-!
# Numerals: what the notations of numbers have in common

The notations of integers and of floating-point numbers are built from the same parts: blanks around
the literal, a sign in front, and digits of a base. This file says what each part is without saying
how it is read, and that reading finds exactly this.

* `DigitChar base c d`: a character stands for a digit. Its value is positional, so a row of digits
  denotes `Nat.ofDigits`, the least significant digit taken first (`valueOf_eq_ofDigits`).
* `Sign sign negative`: the three ways of writing a sign, one of which is to write none.
* `Surrounds text body`: nothing but blanks stands around the body.

No part of a literal is a blank, and no literal starts with two signs (`Bare`); that is why what is
left after trimming and after taking the sign is what was written (`takeSign_trim`).
-/

namespace FrameCode.Text

variable {base d : Nat} {c : Char} {cs body text sign : List Char} {ds : List Nat} {negative : Bool}

/-! ## Digits -/

/-- A character that stands for a digit of a base up to sixteen. From ten on the digits are letters,
and a letter may be a capital. -/
structure DigitChar (base : Nat) (c : Char) (d : Nat) : Prop where
  lt : d < base
  char : c = d.digitChar ∨ c = d.digitChar.toUpper

/-- In a smaller base fewer characters are digits, and those that are keep their value. -/
theorem digitValue?_eq_some_iff_hex (hbase : base ≤ 16) :
    digitValue? base c = some d ↔ digitValue? 16 c = some d ∧ d < base := by
  unfold digitValue?
  simp only [Option.filter_eq_some_iff, decide_eq_true_eq]
  constructor
  · rintro ⟨h, hlt⟩
    exact ⟨⟨h, hlt.trans_le hbase⟩, hlt⟩
  · rintro ⟨⟨h, -⟩, hlt⟩
    exact ⟨h, hlt⟩

theorem digitChar_of_digitValue? (h : digitValue? 16 c = some d) :
    c = d.digitChar ∨ c = d.digitChar.toUpper := by
  -- The three ranges of characters that stand for digits, each of them gone through.
  have hdecimal : ∀ n < 10, Char.ofNat (0x30 + n) = n.digitChar := by decide
  have hcapital : ∀ n < 6, Char.ofNat (0x41 + n) = (n + 10).digitChar.toUpper := by decide
  have hsmall : ∀ n < 6, Char.ofNat (0x61 + n) = (n + 10).digitChar := by decide
  have hc : Char.ofNat c.toNat = c := Char.ofNat_toNat c
  unfold digitValue? at h
  simp only [Option.filter_eq_some_iff, decide_eq_true_eq] at h
  obtain ⟨h, hlt⟩ := h
  split at h
  · obtain rfl := Option.some.inj h
    rw [← hdecimal _ (by omega), Nat.add_sub_cancel' (by omega), hc]
    exact .inl rfl
  · split at h
    · obtain rfl := Option.some.inj h
      rw [← hcapital _ (by omega), Nat.add_sub_cancel' (by omega), hc]
      exact .inr rfl
    · split at h
      · obtain rfl := Option.some.inj h
        rw [← hsmall _ (by omega), Nat.add_sub_cancel' (by omega), hc]
        exact .inl rfl
      · cases h

theorem digitValue?_eq_some_iff (hbase : base ≤ 16) :
    digitValue? base c = some d ↔ DigitChar base c d := by
  have hvalue : ∀ d < 16, digitValue? 16 d.digitChar = some d ∧
      digitValue? 16 d.digitChar.toUpper = some d := by decide
  rw [digitValue?_eq_some_iff_hex hbase]
  constructor
  · rintro ⟨h, hlt⟩
    exact ⟨hlt, digitChar_of_digitValue? h⟩
  · rintro ⟨hlt, hchar⟩
    obtain ⟨hsmall, hcapital⟩ := hvalue d (hlt.trans_le hbase)
    refine ⟨?_, hlt⟩
    rcases hchar with rfl | rfl
    · exact hsmall
    · exact hcapital

/-- Every character is its small letter or the capital of it. -/
theorem eq_or_eq_toUpper (c : Char) : c = c.toLower ∨ c = c.toLower.toUpper := by
  have hcapital : ∀ n < 26, Char.ofNat (0x41 + n) = (Char.ofNat (0x41 + n)).toLower.toUpper := by
    decide
  by_cases h : c.val ≥ 'A'.val ∧ c.val ≤ 'Z'.val
  · right
    obtain ⟨hlow, hhigh⟩ := h
    rw [ge_iff_le, UInt32.le_iff_toNat_le] at hlow
    rw [UInt32.le_iff_toNat_le] at hhigh
    have hlow : 0x41 ≤ c.toNat := hlow
    have hhigh : c.toNat ≤ 0x5A := hhigh
    have hletter := hcapital (c.toNat - 0x41) (by omega)
    rwa [Nat.add_sub_cancel' hlow, Char.ofNat_toNat] at hletter
  · left
    have hsame : c.toLower = c := dif_neg h
    exact hsame.symm

/-- The characters of literals that are digits of no base up to sixteen. -/
def marks : List Char :=
  ['+', '-', '_', '.', 'p', 'P', 'x', 'X', 'o', 'O', 'i', 'I', 'n', 'N']

theorem DigitChar.ne_mark (h : DigitChar base c d) (hbase : base ≤ 16) :
    isBlank c = false ∧ c ∉ marks := by
  have hall : ∀ d < 16, (isBlank d.digitChar = false ∧ d.digitChar ∉ marks) ∧
      isBlank d.digitChar.toUpper = false ∧ d.digitChar.toUpper ∉ marks := by
    decide
  obtain ⟨hsmall, hcapital⟩ := hall d (h.lt.trans_le hbase)
  rcases h.char with rfl | rfl
  · exact hsmall
  · exact hcapital

/-- A text is read as digits exactly if each of its characters stands for its digit. -/
theorem digits?_eq_some_iff (hbase : base ≤ 16) :
    digits? base cs = some ds ↔ List.Forall₂ (DigitChar base) cs ds := by
  unfold digits?
  induction cs generalizing ds with
  | nil =>
    rw [List.mapM_nil, List.forall₂_nil_left_iff]
    exact ⟨fun h => (Option.some.inj h).symm, fun h => h ▸ rfl⟩
  | cons c cs ih =>
    rw [List.mapM_cons, List.forall₂_cons_left_iff]
    simp only [Option.bind_eq_bind, Option.bind_eq_some_iff, digitValue?_eq_some_iff hbase, ih,
      Option.pure_def, Option.some.injEq]
    constructor
    · rintro ⟨d, hd, ds', hds, rfl⟩
      exact ⟨d, ds', hd, hds, rfl⟩
    · rintro ⟨d, ds', hd, hds, rfl⟩
      exact ⟨d, hd, ds', hds, rfl⟩

/-- The number that digits denote is positional. -/
theorem valueOf_eq_ofDigits (base : Nat) (ds : List Nat) :
    valueOf base ds = Nat.ofDigits base ds.reverse := by
  rw [Nat.ofDigits_eq_foldr, List.foldr_reverse, valueOf]
  simp only [Nat.cast_id, Nat.add_comm, Nat.mul_comm]

/-! ## Signs -/

/-- The ways of writing a sign, and whether it is a minus. -/
inductive Sign : List Char → Bool → Prop
  | none : Sign [] false
  | plus : Sign ['+'] false
  | minus : Sign ['-'] true

theorem Sign.isBlank (h : Sign sign negative) (hc : c ∈ sign) : isBlank c = false := by
  cases h with
  | none => cases hc
  | plus =>
    rw [List.mem_singleton.mp hc]
    rfl
  | minus =>
    rw [List.mem_singleton.mp hc]
    rfl

/-- What is taken off in front of a text is a sign. -/
theorem exists_sign (h : takeSign cs = (negative, body)) :
    ∃ sign, Sign sign negative ∧ cs = sign ++ body := by
  unfold takeSign at h
  split at h
  · cases h
    exact ⟨_, .minus, rfl⟩
  · cases h
    exact ⟨_, .plus, rfl⟩
  · cases h
    exact ⟨_, .none, rfl⟩

/-- A sign is taken off, if no second one follows it. -/
theorem takeSign_append (h : Sign sign negative)
    (hbody : ∀ c ∈ body.head?, c ≠ '+' ∧ c ≠ '-') : takeSign (sign ++ body) = (negative, body) := by
  cases h with
  | plus => rfl
  | minus => rfl
  | none =>
    rw [List.nil_append]
    unfold takeSign
    split
    · exact absurd rfl (hbody '-' rfl).2
    · exact absurd rfl (hbody '+' rfl).1
    · rfl

/-! ## Blanks -/

/-- A text that is a body with nothing but blanks around it. -/
def Surrounds (text body : List Char) : Prop :=
  ∃ before after, text = before ++ body ++ after ∧ (∀ c ∈ before, isBlank c = true) ∧
    ∀ c ∈ after, isBlank c = true

/-- Trimming removes blanks only. -/
theorem surrounds_trim (text : List Char) : Surrounds text (trim text) := by
  have hblank : ∀ (ds : List Char), ∀ c ∈ ds.takeWhile isBlank, isBlank c = true :=
    fun ds c hc => List.all_eq_true.mp List.all_takeWhile c hc
  refine ⟨text.takeWhile isBlank, ((text.dropWhile isBlank).reverse.takeWhile isBlank).reverse,
    ?_, hblank text, fun c hc => hblank _ c (List.mem_reverse.mp hc)⟩
  rw [trim, dropEndBlanks, List.append_assoc, ← List.reverse_append,
    List.takeWhile_append_dropWhile, List.reverse_reverse, List.takeWhile_append_dropWhile]

theorem Surrounds.trans {middle : List Char} (h : Surrounds text middle)
    (h' : Surrounds middle body) : Surrounds text body := by
  obtain ⟨before, after, rfl, hbefore, hafter⟩ := h
  obtain ⟨before', after', rfl, hbefore', hafter'⟩ := h'
  refine ⟨before ++ before', after' ++ after, by simp, ?_, ?_⟩
  · exact List.forall_mem_append.mpr ⟨hbefore, hbefore'⟩
  · exact List.forall_mem_append.mpr ⟨hafter', hafter⟩

/-- Blanks in front of a text that has none itself are dropped, and nothing else is. -/
theorem dropWhile_append_of_blank {before : List Char} (hbefore : ∀ c ∈ before, isBlank c = true)
    (hbody : ∀ c ∈ body, isBlank c = false) (hne : body ≠ []) (after : List Char) :
    (before ++ (body ++ after)).dropWhile isBlank = body ++ after := by
  rw [List.dropWhile_append_of_pos hbefore]
  cases body with
  | nil => exact absurd rfl hne
  | cons c cs =>
    have hc : ¬isBlank c = true := by simp [hbody c (List.mem_cons_self ..)]
    rw [List.cons_append, List.dropWhile_cons_of_neg hc]

/-- A body without blanks is what trimming leaves. -/
theorem trim_of_surrounds (h : Surrounds text body) (hbody : ∀ c ∈ body, isBlank c = false)
    (hne : body ≠ []) : trim text = body := by
  obtain ⟨before, after, rfl, hbefore, hafter⟩ := h
  have hreverse : (body ++ after).reverse = after.reverse ++ (body.reverse ++ []) := by simp
  rw [trim, dropEndBlanks, List.append_assoc, dropWhile_append_of_blank hbefore hbody hne, hreverse,
    dropWhile_append_of_blank (by simpa using hafter) (by simpa using hbody) (by simpa using hne),
    List.append_nil, List.reverse_reverse]

/-! ## Literals with a sign -/

/-- A literal without its sign: it is not empty, has no blanks, and no sign stands in front. -/
structure Bare (body : List Char) : Prop where
  head : ∃ c rest, body = c :: rest ∧ c ≠ '+' ∧ c ≠ '-'
  isBlank : ∀ c ∈ body, isBlank c = false

/-- Without the blanks around it a literal is its sign and the rest. -/
theorem trim_of_bare (hsign : Sign sign negative) (hbody : Bare body)
    (htext : Surrounds text (sign ++ body)) : trim text = sign ++ body := by
  obtain ⟨c, rest, rfl, -⟩ := hbody.head
  refine trim_of_surrounds htext (fun d hd => ?_) (by simp)
  rcases List.mem_append.mp hd with hd | hd
  · exact hsign.isBlank hd
  · exact hbody.isBlank d hd

theorem takeSign_of_bare (hsign : Sign sign negative) (hbody : Bare body) :
    takeSign (sign ++ body) = (negative, body) := by
  obtain ⟨c, rest, rfl, hplus, hminus⟩ := hbody.head
  refine takeSign_append hsign (fun d hd => ?_)
  obtain rfl : c = d := Option.some.inj hd
  exact ⟨hplus, hminus⟩

/-- Blanks and the sign are taken off, and the rest is what follows the sign. -/
theorem takeSign_trim (hsign : Sign sign negative) (hbody : Bare body)
    (htext : Surrounds text (sign ++ body)) : takeSign (trim text) = (negative, body) := by
  rw [trim_of_bare hsign hbody htext, takeSign_of_bare hsign hbody]

/-- Whatever is left stands behind a sign, with blanks around both. -/
theorem exists_surrounds (h : takeSign (trim text) = (negative, body)) :
    ∃ sign, Sign sign negative ∧ Surrounds text (sign ++ body) := by
  obtain ⟨sign, hsign, htrim⟩ := exists_sign h
  refine ⟨sign, hsign, ?_⟩
  rw [← htrim]
  exact surrounds_trim text

end FrameCode.Text
