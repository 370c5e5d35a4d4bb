import FrameCode.Proofs.DecimalGrammar
import FrameCode.Proofs.Escapes
import FrameCode.Proofs.IntegerGrammar
import FrameCode.Source.Argument

/-!
# The grammar of operands

A document gives an operand by the name of a kind and a text. Which texts denote an operand of a
kind, and which one, is the matter of `Written`, with one rule for each kind: names of variables and
labels are identifiers, integers are `IntegerLiteral`s, floating-point numbers are `FloatLiteral`s,
a string is what the positions of its text contribute (`decoded`), and the other kinds have a table
of names.

The mark of a frame does not hold the sign `@`, so the first sign of a text is where the two parts
of a variable meet.

Reading accepts exactly what is written so (`operand?_eq_some_iff`).
-/

namespace FrameCode

open FrameCode.Text

/-! ## Floating-point literals -/

namespace Literal

open FrameCode.Binary64

variable {text : List Char} {x : Binary64}

/-- The floating-point literals, and the number that each denotes: the names of the infinities and
of NaN, the literals in decimal digits, and of all other texts those in hexadecimal digits. Decimal
digits denote the number nearest to their value. Hexadecimal digits denote the one nearest to 53
significant bits of their value, where a larger exponent counts as the bound of exponents. -/
inductive FloatLiteral (text : List Char) : Binary64 → Prop
  | named {x : Binary64} (h : NamedLiteral text x) : FloatLiteral text x
  | decimal {x : Binary64} {before after : List ℕ} {e : ℤ}
    (h : DecimalLiteral text x.isNegative before after e)
    (hnearest : Nearest (decimalValue before after e) x) : FloatLiteral text x
  | hexadecimal {x : Binary64} {before after : List ℕ} {e : ℤ}
    (hdecimal : ∀ negative before after e, ¬DecimalLiteral text negative before after e)
    (h : DigitLiteral text x.isNegative before after e)
    (hnearest : Nearest
      (toPrecision 53 (writtenValue before after (cutExponent (min exponentBound) e))) x) :
    FloatLiteral text x

/-- A text in hexadecimal digits is read as the number that it denotes. -/
theorem ofHex?_of_digits {negative : Bool} {before after : List ℕ} {e : ℤ}
    (h : DigitLiteral text negative before after e) (x : Binary64) :
    ofHex? text = some x ↔ x.isNegative = negative ∧
      Nearest
        (toPrecision 53 (writtenValue before after (cutExponent (min exponentBound) e))) x := by
  obtain ⟨hnearest, hpositive⟩ := nearest_computed h.digit_lt (cutExponent (min exponentBound) e)
  obtain ⟨hsign, hmagnitude⟩ := isNegative_signed negative hpositive
  rw [ofHex?_eq_some_iff (ofHexWith?_digits rfl h) (hnearest.of_magnitude hmagnitude), hsign]

/-- Blanks around a literal make no difference. -/
theorem digitLiteral_trim_iff {negative : Bool} {before after : List ℕ} {e : ℤ} :
    DigitLiteral (trim text) negative before after e ↔
      DigitLiteral text negative before after e := by
  constructor
  · rintro ⟨sign, body, hsign, hbody, htext⟩
    exact ⟨sign, body, hsign, hbody, (surrounds_trim text).trans htext⟩
  · rintro ⟨sign, body, hsign, hbody, htext⟩
    rw [trim_of_bare hsign hbody.bare htext]
    exact ⟨sign, body, hsign, hbody, [], [], by simp, by simp, by simp⟩

theorem decimalFloat?_of_digits {negative : Bool} {before after : List ℕ} {e : ℤ}
    (h : DigitLiteral text negative before after e)
    (hdecimal : ∀ negative before after e, ¬DecimalLiteral text negative before after e) :
    decimalFloat? (trim text) = none := by
  rcases hread : decimalFloat? (trim text) with _ | y
  · rfl
  · rcases decimalFloat?_eq_some_iff.mp hread with hnamed | ⟨before', after', e', h', -⟩
    · exact absurd hnamed h.not_named
    · exact absurd h' (hdecimal _ _ _ _)

theorem float?_eq_some_iff : float? text = some x ↔ FloatLiteral text x := by
  unfold float?
  rw [Option.orElse_eq_some]
  constructor
  · rintro (hread | ⟨hnone, hhex⟩)
    · rcases decimalFloat?_eq_some_iff.mp hread with hnamed | ⟨before, after, e, h, hnearest⟩
      · exact .named hnamed
      · exact .decimal h hnearest
    · rcases exists_literal hhex with ⟨y, sign, negative, body, hsign, hbody, htext⟩ |
        ⟨negative, before, after, e, hdigits⟩
      · -- A name would have been read before.
        have hnamed : NamedLiteral text y :=
          ⟨sign, negative, body, hsign, hbody, (surrounds_trim text).trans htext⟩
        rw [decimalFloat?_of_named hnamed] at hnone
        cases hnone
      · obtain ⟨rfl, hnearest⟩ := (ofHex?_of_digits hdigits x).mp hhex
        refine .hexadecimal (fun negative before after e h => ?_)
          (digitLiteral_trim_iff.mp hdigits) hnearest
        obtain ⟨y, hy⟩ := h.exists_read
        rw [hnone] at hy
        cases hy
  · rintro (hnamed | ⟨h, hnearest⟩ | ⟨hdecimal, hdigits, hnearest⟩)
    · exact .inl (decimalFloat?_of_named hnamed)
    · exact .inl (decimalFloat?_eq_some_iff.mpr (.inr ⟨_, _, _, h, hnearest⟩))
    · exact .inr ⟨decimalFloat?_of_digits hdigits hdecimal,
        (ofHex?_of_digits (digitLiteral_trim_iff.mpr hdigits) x).mpr ⟨rfl, hnearest⟩⟩

theorem int?_eq_some_iff {n : Int64} : int? text = some n ↔ IntegerLiteral text n.toInt := by
  constructor
  · exact integerLiteral_of_int?
  · intro h
    generalize hz : n.toInt = z at h
    cases h with
    | unsigned hsign h htext => exact int?_of_surrounds hsign h htext hz
    | negative hsign h htext => exact int?_of_surrounds hsign h htext hz

end Literal

namespace Argument

variable {c : Char} {cs : List Char} {text : String} {a : Operand} {v : Variable}

/-! ## Identifiers -/

/-- The letters and signs with which an identifier starts. -/
def IdentifierStart (c : Char) : Prop :=
  ('A' ≤ c ∧ c ≤ 'Z') ∨ ('a' ≤ c ∧ c ≤ 'z') ∨ c ∈ ['_', '$', '&', '%', '*', '!', '?', '-']

/-- What follows the start of an identifier: the same, and digits. -/
def IdentifierRest (c : Char) : Prop :=
  IdentifierStart c ∨ ('0' ≤ c ∧ c ≤ '9')

/-- A letter or sign, and any number of letters, signs and digits. -/
def Identifier (cs : List Char) : Prop :=
  ∃ c rest, cs = c :: rest ∧ IdentifierStart c ∧ ∀ d ∈ rest, IdentifierRest d

theorem isAlpha_iff : c.isAlpha = true ↔ ('A' ≤ c ∧ c ≤ 'Z') ∨ ('a' ≤ c ∧ c ≤ 'z') := by
  show (decide ('A' ≤ c ∧ c ≤ 'Z') || (decide ('a' ≤ c) && decide (c ≤ 'z'))) = true ↔ _
  simp only [Bool.or_eq_true, Bool.and_eq_true, decide_eq_true_eq]

theorem isIdentifierStart_iff : isIdentifierStart c = true ↔ IdentifierStart c := by
  have hsigns : ['_', '-', '$', '&', '%', '*', '!', '?'].contains c = true ↔
      c ∈ ['_', '$', '&', '%', '*', '!', '?', '-'] := by
    simp only [List.contains_iff_mem, List.mem_cons, List.not_mem_nil, or_false]
    tauto
  unfold isIdentifierStart IdentifierStart
  rw [Bool.or_eq_true, hsigns, isAlpha_iff, or_assoc]

theorem isIdentifierChar_iff : isIdentifierChar c = true ↔ IdentifierRest c := by
  unfold isIdentifierChar IdentifierRest
  rw [Bool.or_eq_true, isIdentifierStart_iff, isDigit_iff]
  rfl

theorem isIdentifier_iff : isIdentifier cs = true ↔ Identifier cs := by
  unfold Identifier
  cases cs with
  | nil => simp [isIdentifier]
  | cons c rest =>
    simp only [isIdentifier, Bool.and_eq_true, List.all_eq_true, isIdentifierStart_iff,
      isIdentifierChar_iff, List.cons.injEq]
    constructor
    · rintro ⟨hstart, hrest⟩
      exact ⟨c, rest, ⟨rfl, rfl⟩, hstart, hrest⟩
    · rintro ⟨c', rest', ⟨rfl, rfl⟩, hstart, hrest⟩
      exact ⟨hstart, hrest⟩

/-! ## Tables of names -/

/-- In a table of all things of a kind, with different names, a thing is found by its name. -/
theorem find?_name {α : Type} {all : List α} {name : α → String} (hall : ∀ x, x ∈ all)
    (hinj : Function.Injective name) {s : String} {x : α} :
    all.find? (fun y => name y == s) = some x ↔ s = name x := by
  constructor
  · intro h
    have hname := List.find?_some h
    exact (eq_of_beq hname).symm
  · rintro rfl
    rcases hfind : all.find? fun y => name y == name x with _ | y
    · have hnone := List.find?_eq_none.mp hfind x (hall x)
      simp at hnone
    · -- What is found has the same name, and nothing else has it.
      have hname := List.find?_some hfind
      rw [hinj (eq_of_beq hname)]

theorem Kind.text_injective : Function.Injective Kind.text := by
  intro k k' h
  revert h
  cases k <;> cases k' <;> decide

theorem mark_injective : Function.Injective FrameName.mark := by
  intro f f' h
  revert h
  cases f <;> cases f' <;> decide

theorem typeText_injective : Function.Injective ValueType.text := by
  intro t t' h
  revert h
  cases t <;> cases t' <;> decide

theorem Kind.ofText?_eq_some_iff {s : String} {k : Kind} : ofText? s = some k ↔ s = k.text :=
  find?_name (by intro k; cases k <;> decide) text_injective

theorem ofMark?_eq_some_iff {s : String} {f : FrameName} :
    FrameName.ofMark? s = some f ↔ s = f.mark :=
  find?_name (by intro f; cases f <;> decide) mark_injective

theorem typeOfText?_eq_some_iff {s : String} {t : ValueType} :
    ValueType.ofText? s = some t ↔ s = t.text :=
  find?_name (by intro t; cases t <;> decide) typeText_injective

/-! ## The first sign -/

theorem at_not_mem_mark (f : FrameName) : '@' ∉ f.mark.toList := by
  cases f <;> decide

/-- A text is cut at its first sign. -/
theorem cutAt_at {m : String} (hm : '@' ∉ m.toList) (r : String) :
    cutAt (· == '@') (m ++ "@" ++ r).toList = (m.toList, some r.toList) := by
  rw [String.toList_append, String.toList_append, List.append_assoc]
  refine cutAt_append ?_ rfl
  intro c hc
  have hne : c ≠ '@' := by
    rintro rfl
    exact hm hc
  simpa using hne

/-! ## Variables and labels -/

/-- A text is read as a variable exactly if it is a mark, a sign and an identifier. -/
theorem variableOf?_eq_some_iff :
    variableOf? text.toList = some v ↔ text = v.text ∧ Identifier v.name.toList := by
  unfold variableOf?
  constructor
  · intro h
    split at h
    · rename_i mark name hcut
      simp only [Option.bind_eq_some_iff, ofMark?_eq_some_iff] at h
      obtain ⟨frame, hmark, h⟩ := h
      by_cases hname : isIdentifier name = true
      · rw [if_pos hname] at h
        cases h
        -- What was cut off at the sign is the mark, and the sign stands behind it.
        rcases eq_of_cutAt (· == '@') text.toList with ⟨hnone, -⟩ | ⟨c, after, hc, hafter, htext⟩
        · rw [hcut] at hnone
          cases hnone
        · rw [hcut] at hafter htext
          cases hafter
          refine ⟨?_, by simpa using isIdentifier_iff.mp hname⟩
          apply String.toList_inj.mp
          have hc : c = '@' := by simpa using hc
          simp [htext, hc, Variable.text, ← hmark]
      · rw [if_neg hname] at h
        cases h
    · cases h
  · rintro ⟨rfl, hname⟩
    have hmark := ofMark?_eq_some_iff.mpr (rfl : v.frame.mark = v.frame.mark)
    rw [Variable.text, cutAt_at (at_not_mem_mark v.frame)]
    simp [hmark, isIdentifier_iff.mpr hname]

theorem operand?_var_iff :
    operand? .var text = some a ↔ ∃ v, text = v.text ∧ Identifier v.name.toList ∧ a = .var v := by
  show (variableOf? text.toList).map Operand.var = some a ↔ _
  simp only [Option.map_eq_some_iff, variableOf?_eq_some_iff, and_assoc, eq_comm (b := a)]

theorem operand?_label_iff :
    operand? .label text = some a ↔ Identifier text.toList ∧ a = .label text := by
  show (if isIdentifier text.toList then some (Operand.label text) else none) = some a ↔ _
  rw [← isIdentifier_iff]
  by_cases h : isIdentifier text.toList = true
  · simp [h, eq_comm]
  · simp [h]

/-! ## All kinds -/

/-- The texts that denote an operand of a kind, and the operand that each denotes. -/
inductive Written : Kind → String → Operand → Prop
  | var (v : Variable) (h : Identifier v.name.toList) : Written .var v.text (.var v)
  | label {text : String} (h : Identifier text.toList) : Written .label text (.label text)
  | type (t : ValueType) : Written .type t.text (.type t)
  | int {text : String} {n : Int64} (h : Literal.IntegerLiteral text.toList n.toInt) :
    Written .int text (.const (.int n))
  | float {text : String} {x : Binary64} (h : Literal.FloatLiteral text.toList x) :
    Written .float text (.const (.float x))
  | bool (b : Bool) : Written .bool (if b then "true" else "false") (.const (.bool b))
  | nil : Written .nil "nil" (.const .nil)
  | string (text : String) :
    Written .string text (.const (.string (String.ofList (Literal.decoded text.toList))))

theorem boolOf?_eq_some_iff {b : Bool} :
    boolOf? text = some b ↔ text = if b then "true" else "false" := by
  unfold boolOf?
  split
  · rename_i h
    cases b <;> simp [h]
  · rename_i htrue
    split
    · rename_i h
      cases b <;> simp [h]
    · rename_i hfalse
      cases b <;> simp [htrue, hfalse]

/-- **Operands are what is written.** A text is read as an operand of a kind exactly if the grammar
says that it denotes this operand. -/
theorem operand?_eq_some_iff {kind : Kind} : operand? kind text = some a ↔ Written kind text a := by
  constructor
  · intro h
    cases kind with
    | var =>
      obtain ⟨v, rfl, hname, rfl⟩ := operand?_var_iff.mp h
      exact .var v hname
    | label =>
      obtain ⟨hname, rfl⟩ := operand?_label_iff.mp h
      exact .label hname
    | type =>
      obtain ⟨t, ht, rfl⟩ := Option.map_eq_some_iff.mp h
      rw [typeOfText?_eq_some_iff.mp ht]
      exact .type t
    | int =>
      obtain ⟨n, hn, rfl⟩ := Option.map_eq_some_iff.mp h
      exact .int (Literal.int?_eq_some_iff.mp hn)
    | float =>
      obtain ⟨x, hx, rfl⟩ := Option.map_eq_some_iff.mp h
      exact .float (Literal.float?_eq_some_iff.mp hx)
    | bool =>
      obtain ⟨b, hb, rfl⟩ := Option.map_eq_some_iff.mp h
      rw [boolOf?_eq_some_iff.mp hb]
      exact .bool b
    | nil =>
      change (if text = "nil" then some (Operand.const .nil) else none) = some a at h
      split at h
      · rename_i htext
        cases h
        rw [htext]
        exact .nil
      · cases h
    | string =>
      cases h
      rw [Literal.unescape_eq_decoded]
      exact .string text
  · intro h
    cases h with
    | var v hname => exact operand?_var_iff.mpr ⟨v, rfl, hname, rfl⟩
    | label hname => exact operand?_label_iff.mpr ⟨hname, rfl⟩
    | type t => simp [operand?, typeOfText?_eq_some_iff.mpr rfl]
    | int h => simp [operand?, Literal.int?_eq_some_iff.mpr h]
    | float h => simp [operand?, Literal.float?_eq_some_iff.mpr h]
    | bool b => simp [operand?, boolOf?_eq_some_iff.mpr rfl]
    | nil => rfl
    | string text => simp [operand?, Literal.unescape_eq_decoded]

end Argument

end FrameCode
