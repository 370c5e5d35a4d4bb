import FrameCode.Literal.Escape
import FrameCode.Proofs.Digits
import Mathlib.Data.List.Forall2

/-!
# Escapes and the texts they stand for

A string literal is read from left to right, and what a backslash and three digits stand for is not
looked at again. This module says the same without a reader, in two ways.

* **Spellings.** A character is spelled by itself, unless it is the backslash, or by a backslash and
  the three digits of its code, if the code has no more. A text that spells the characters of a
  string one after the other denotes the string, whichever spelling each of them has, and whatever
  follows is read as if it stood alone (`unescape_flatten`).
* **Positions.** In any text, an escape stands where a backslash and three digits stand
  (`EscapeAt`). A digit is no backslash, so no two escapes share a character, and no search from the
  left is needed to find them. What a position contributes (`decodedAt`) is the character that an
  escape names where the escape starts, nothing at the digits of an escape, and the character itself
  everywhere else.
-/

namespace FrameCode.Literal

open FrameCode.Text

variable {a b c x : Char} {cs rest before piece s : List Char} {i n : Nat}

/-! ## Where escapes stand -/

/-- A backslash stands at a position, and digits at the three positions behind it. -/
def EscapeAt (cs : List Char) (i : Nat) : Prop :=
  cs[i]? = some '\\' ∧ ∀ k ∈ [1, 2, 3], (cs[i + k]?).any isDigit = true

instance (cs : List Char) : DecidablePred (EscapeAt cs) :=
  fun _ => inferInstanceAs (Decidable (_ ∧ _))

theorem escapeAt_slash_iff : EscapeAt ('\\' :: a :: b :: c :: rest) 0 ↔
    (isDigit a && isDigit b && isDigit c) = true := by
  simp [EscapeAt, and_assoc]

/-- An escape at the start of a text takes four characters. -/
theorem EscapeAt.exists_eq_cons (h : EscapeAt cs 0) :
    ∃ a b c rest, cs = '\\' :: a :: b :: c :: rest := by
  obtain ⟨hslash, hdigits⟩ := h
  have hlast := hdigits 3 (by simp)
  match cs with
  | [] | [_] | [_, _] | [_, _, _] => simp at hlast
  | x :: a :: b :: c :: rest =>
    have hx : x = '\\' := Option.some.inj hslash
    exact ⟨a, b, c, rest, by rw [hx]⟩

/-- No escape starts in an escape. -/
theorem EscapeAt.not_add (h : EscapeAt cs i) {k : Nat} (hk : k ∈ [1, 2, 3]) :
    ¬EscapeAt cs (i + k) := by
  intro hstart
  have hdigit := h.2 k hk
  rw [hstart.1] at hdigit
  exact absurd hdigit (by decide)

theorem getElem?_append_add : (before ++ cs)[before.length + i]? = cs[i]? := by
  rw [List.getElem?_append_right (Nat.le_add_right before.length i), Nat.add_sub_cancel_left]

theorem escapeAt_append : EscapeAt (before ++ cs) (before.length + i) ↔ EscapeAt cs i := by
  simp only [EscapeAt, Nat.add_assoc, getElem?_append_add]

/-! ## One step of the reader -/

theorem unescape_of_escapeAt (h : EscapeAt ('\\' :: a :: b :: c :: rest) 0) :
    unescape ('\\' :: a :: b :: c :: rest) = escapedChar a b c :: unescape rest := by
  rw [unescape, if_pos (escapeAt_slash_iff.mp h)]

/-- A character with which no escape starts stands for itself. -/
theorem unescape_of_not_escapeAt (h : ¬EscapeAt (x :: rest) 0) :
    unescape (x :: rest) = x :: unescape rest := by
  conv_lhs => unfold unescape
  split
  · rename_i a b c rest' heq
    cases heq
    rw [if_neg (mt escapeAt_slash_iff.mpr h)]
  · rename_i heq
    cases heq
    rfl
  · rename_i heq
    cases heq

/-! ## Spellings -/

/-- The three digits of a number below a thousand. -/
def threeDigits (n : Nat) : List Char :=
  [(n / 100).digitChar, (n / 10 % 10).digitChar, (n % 10).digitChar]

/-- The ways of writing a character: by itself, or by its code. A backslash has its code only. -/
inductive Spells : List Char → Char → Prop
  | literal {c : Char} (h : c ≠ '\\') : Spells [c] c
  | code {c : Char} (h : c.toNat ≤ 999) : Spells ('\\' :: threeDigits c.toNat) c

theorem isDigit_digitChar (h : n < 10) : isDigit n.digitChar = true := by
  rw [isDigit_iff, Nat.toNat_digitChar_of_lt_ten h]
  omega

theorem decimalDigit_digitChar (h : n < 10) : decimalDigit n.digitChar = n := by
  rw [decimalDigit, Nat.toNat_digitChar_of_lt_ten h]
  omega

/-- An escape with the code of a character stands for the character. -/
theorem unescape_threeDigits (h : c.toNat ≤ 999) (rest : List Char) :
    unescape ('\\' :: threeDigits c.toNat ++ rest) = c :: unescape rest := by
  have hhundreds : c.toNat / 100 < 10 := by omega
  have htens : c.toNat / 10 % 10 < 10 := Nat.mod_lt _ (by decide)
  have hones : c.toNat % 10 < 10 := Nat.mod_lt _ (by decide)
  -- The digits taken together are the code again.
  have hcode : c.toNat / 100 * 100 + c.toNat / 10 % 10 * 10 + c.toNat % 10 = c.toNat := by
    omega
  have hchar : escapedChar (c.toNat / 100).digitChar (c.toNat / 10 % 10).digitChar
      (c.toNat % 10).digitChar = c := by
    rw [escapedChar, decimalDigit_digitChar hhundreds, decimalDigit_digitChar htens,
      decimalDigit_digitChar hones, hcode, Char.ofNat_toNat]
  have hescape : EscapeAt ('\\' :: threeDigits c.toNat ++ rest) 0 := by
    apply escapeAt_slash_iff.mpr
    rw [isDigit_digitChar hhundreds, isDigit_digitChar htens, isDigit_digitChar hones]
    rfl
  exact (unescape_of_escapeAt hescape).trans (by rw [hchar]; rfl)

/-- A spelling is read as its character, whatever follows. -/
theorem Spells.unescape_append (h : Spells piece c) (rest : List Char) :
    unescape (piece ++ rest) = c :: unescape rest := by
  cases h with
  | literal hne =>
    apply unescape_of_not_escapeAt
    intro hstart
    exact hne (Option.some.inj hstart.1)
  | code hle => exact unescape_threeDigits hle rest

/-- Spellings of the characters of a string are read as the string, whatever follows. -/
theorem unescape_flatten {pieces : List (List Char)} (h : List.Forall₂ Spells pieces s)
    (rest : List Char) : unescape (pieces.flatten ++ rest) = s ++ unescape rest := by
  induction h with
  | nil => rfl
  | cons hpiece _ ih =>
    rw [List.flatten_cons, List.append_assoc, hpiece.unescape_append, ih]
    rfl

/-- Every string has a spelling. -/
theorem exists_spellings (s : List Char) : ∃ pieces, List.Forall₂ Spells pieces s := by
  induction s with
  | nil => exact ⟨[], .nil⟩
  | cons c s ih =>
    obtain ⟨pieces, hpieces⟩ := ih
    by_cases h : c = '\\'
    · have hcode : c.toNat ≤ 999 := by
        rw [h]
        decide
      exact ⟨_ :: pieces, .cons (.code hcode) hpieces⟩
    · exact ⟨_ :: pieces, .cons (.literal h) hpieces⟩

/-! ## What positions contribute -/

/-- What a position of a text contributes to what the text stands for. -/
def decodedAt (cs : List Char) (i : Nat) : List Char :=
  if EscapeAt cs i then [Char.ofNat (Nat.ofDigitChars 10 ((cs.drop (i + 1)).take 3) 0)]
  -- A digit of an escape that starts before the position.
  else if ∃ j, j < i ∧ i ≤ j + 3 ∧ EscapeAt cs j then []
  else cs[i]?.toList

/-- Behind a part of the text that no escape leaves, positions contribute what they contribute to
the rest alone. -/
theorem decodedAt_append
    (h : ∀ j < before.length, EscapeAt (before ++ cs) j → j + 3 < before.length) (i : Nat) :
    decodedAt (before ++ cs) (before.length + i) = decodedAt cs i := by
  have hinside : (∃ j, j < before.length + i ∧ before.length + i ≤ j + 3 ∧
      EscapeAt (before ++ cs) j) ↔ ∃ j, j < i ∧ i ≤ j + 3 ∧ EscapeAt cs j := by
    constructor
    · rintro ⟨j, hlt, hle, hj⟩
      -- An escape that starts in front ends there, so this one starts in the rest.
      have hge : before.length ≤ j := by
        by_contra hlt'
        have hend := h j (by omega) hj
        omega
      obtain ⟨j', rfl⟩ := Nat.exists_eq_add_of_le hge
      exact ⟨j', by omega, by omega, escapeAt_append.mp hj⟩
    · rintro ⟨j, hlt, hle, hj⟩
      exact ⟨before.length + j, by omega, by omega, escapeAt_append.mpr hj⟩
  have hdrop : (before ++ cs).drop (before.length + i + 1) = cs.drop (i + 1) := by
    rw [Nat.add_assoc, ← List.drop_drop, List.drop_left]
  simp only [decodedAt, escapeAt_append, hinside, hdrop, getElem?_append_add]

/-- What all positions of a text contribute, one after the other. -/
def decoded (cs : List Char) : List Char :=
  (List.range cs.length).flatMap (decodedAt cs)

theorem decoded_append
    (h : ∀ j < before.length, EscapeAt (before ++ cs) j → j + 3 < before.length) :
    decoded (before ++ cs) =
      (List.range before.length).flatMap (decodedAt (before ++ cs)) ++ decoded cs := by
  rw [decoded, List.length_append, List.range_add, List.flatMap_append, List.flatMap_map]
  simp only [decodedAt_append h, decoded]

theorem decodedAt_of_escapeAt (h : EscapeAt ('\\' :: a :: b :: c :: rest) 0) :
    decodedAt ('\\' :: a :: b :: c :: rest) 0 = [escapedChar a b c] := by
  rw [decodedAt, if_pos h]
  show [Char.ofNat (10 * (10 * (10 * 0 + (a.toNat - 48)) + (b.toNat - 48)) + (c.toNat - 48))] =
    [Char.ofNat ((a.toNat - 48) * 100 + (b.toNat - 48) * 10 + (c.toNat - 48))]
  congr 2
  omega

/-- The digits of an escape contribute nothing. -/
theorem EscapeAt.decodedAt_add (h : EscapeAt cs i) {k : Nat} (hk : k ∈ [1, 2, 3]) :
    decodedAt cs (i + k) = [] := by
  have hbounds : 0 < k ∧ k ≤ 3 := by
    simp only [List.mem_cons, List.not_mem_nil, or_false] at hk
    omega
  rw [decodedAt, if_neg (h.not_add hk), if_pos ⟨i, by omega, by omega, h⟩]

theorem decoded_of_escapeAt (h : EscapeAt ('\\' :: a :: b :: c :: rest) 0) :
    decoded ('\\' :: a :: b :: c :: rest) = escapedChar a b c :: decoded rest := by
  -- No escape starts at the digits, so no escape reaches from the first four characters on.
  have hend : ∀ j < ['\\', a, b, c].length, EscapeAt (['\\', a, b, c] ++ rest) j →
      j + 3 < ['\\', a, b, c].length := by
    intro j hj hstart
    by_contra hlt
    have hk : j ∈ [1, 2, 3] := by
      simp only [List.length_cons, List.length_nil, List.mem_cons, List.not_mem_nil,
        or_false] at hj hlt ⊢
      omega
    have hnot := h.not_add hk
    rw [Nat.zero_add] at hnot
    exact hnot hstart
  have hdigit : ∀ k ∈ [1, 2, 3], decodedAt ('\\' :: a :: b :: c :: rest) k = [] := by
    intro k hk
    have hnothing := h.decodedAt_add hk
    rwa [Nat.zero_add] at hnothing
  refine (decoded_append hend).trans ?_
  show (List.range 4).flatMap (decodedAt ('\\' :: a :: b :: c :: rest)) ++ decoded rest = _
  simp only [List.range_succ, List.range_zero, List.flatMap_append, List.flatMap_cons]
  rw [decodedAt_of_escapeAt h, hdigit 1 (by simp), hdigit 2 (by simp), hdigit 3 (by simp)]
  rfl

theorem decoded_of_not_escapeAt (h : ¬EscapeAt (x :: rest) 0) :
    decoded (x :: rest) = x :: decoded rest := by
  have hend : ∀ j < [x].length, EscapeAt ([x] ++ rest) j → j + 3 < [x].length := by
    intro j hj hstart
    have hzero : j = 0 := Nat.lt_one_iff.mp hj
    rw [hzero] at hstart
    exact absurd hstart h
  have hfirst : decodedAt (x :: rest) 0 = [x] := by
    rw [decodedAt, if_neg h, if_neg (by simp)]
    rfl
  refine (decoded_append hend).trans ?_
  show (decodedAt (x :: rest) 0 ++ []) ++ _ = _
  rw [hfirst]
  rfl

/-- A text stands for what its positions contribute, for both have the same equations: one for an
escape at the start, and one for any other character there. -/
theorem unescape_eq_decoded (cs : List Char) : unescape cs = decoded cs := by
  induction cs using unescape.induct with
  | case1 a b c rest hdigits ih =>
    have h : EscapeAt ('\\' :: a :: b :: c :: rest) 0 := escapeAt_slash_iff.mpr hdigits
    rw [unescape_of_escapeAt h, decoded_of_escapeAt h, ih]
  | case2 a b c rest hdigits ih =>
    have h : ¬EscapeAt ('\\' :: a :: b :: c :: rest) 0 := mt escapeAt_slash_iff.mp hdigits
    rw [unescape_of_not_escapeAt h, decoded_of_not_escapeAt h, ih]
  | case3 x rest hother ih =>
    have h : ¬EscapeAt (x :: rest) 0 := by
      intro hstart
      obtain ⟨a, b, c, rest', heq⟩ := hstart.exists_eq_cons
      cases heq
      exact hother a b c rest' rfl rfl
    rw [unescape_of_not_escapeAt h, decoded_of_not_escapeAt h, ih]
  | case4 => rfl

/-- **Escapes.** Every string can be spelled, character by character, each one by itself, if it is
no backslash, or by its code, if that is at most 999. Every such text is read as the string, and
what stands behind it is read as if it stood alone, so no character that an escape names is part of
another escape. Any text at all is read as what its positions contribute: each backslash with three
digits behind it contributes the character with that code, the digits nothing, and all other
characters themselves. -/
theorem unescape_spellings :
    (∀ s, ∃ pieces, List.Forall₂ Spells pieces s) ∧
    (∀ pieces s, List.Forall₂ Spells pieces s →
      unescape pieces.flatten = s ∧
      ∀ rest, unescape (pieces.flatten ++ rest) = s ++ unescape rest) ∧
    ∀ cs, unescape cs = (List.range cs.length).flatMap (decodedAt cs) := by
  refine ⟨exists_spellings, ?_, unescape_eq_decoded⟩
  intro pieces s h
  have hrest := unescape_flatten h
  refine ⟨?_, hrest⟩
  have hnil := hrest []
  simpa [unescape] using hnil

/-- A backslash by its code, and three digits by themselves: what is read looks like an escape, and
is not read again. -/
theorem unescape_spellings_backslash :
    List.Forall₂ Spells [['\\', '0', '9', '2'], ['0'], ['6'], ['5']] ['\\', '0', '6', '5'] ∧
      unescape ['\\', '0', '9', '2', '0', '6', '5'] = ['\\', '0', '6', '5'] := by
  have hspells : List.Forall₂ Spells [['\\', '0', '9', '2'], ['0'], ['6'], ['5']]
      ['\\', '0', '6', '5'] :=
    .cons (.code (c := '\\') (by decide)) (.cons (.literal (by decide))
      (.cons (.literal (by decide)) (.cons (.literal (by decide)) .nil)))
  exact ⟨hspells, (unescape_spellings.2.1 _ _ hspells).1⟩

end FrameCode.Literal
