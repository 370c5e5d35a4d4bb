import FrameCode.Proofs.Arguments
import FrameCode.Proofs.Transcripts

/-!
# The notation of operands read back

An operand has a text of the form `kind@rest`, which dumps show, and a document gives an operand by
a kind and a text. The two are inverse to each other. A variable is the exception in form: what
stands before its sign is the mark of a frame and not a kind, so its whole text is read as the text
of a variable.

Neither the name of a kind nor the mark of a frame holds the sign `@`, so a text is taken apart at
its first sign, in one way only (`eq_of_at`). No mark of a frame is the name of a kind, so two
operands with the same text are the same operand.

Strings are not read back, for their escapes are gone, and all NaNs have one text.
-/

namespace FrameCode

open FrameCode.Checks FrameCode.Text

namespace Argument

variable {text : String} {a b : Operand} {order : Nat}

/-- An operand of a kind is the same, whether the kind or its name is given. -/
theorem operand_text_iff (kind : Kind) :
    operand order kind.text text = .ok a ↔ operand? kind text = some a := by
  rw [Source.operand_eq_ok_iff]
  simp only [Kind.ofText?_eq_some_iff]
  constructor
  · rintro ⟨k, hk, ha⟩
    rwa [Kind.text_injective hk]
  · intro ha
    exact ⟨kind, rfl, ha⟩

/-! ## The first sign -/

theorem at_not_mem_kind (k : Kind) : '@' ∉ k.text.toList := by
  cases k <;> decide

/-- A text is taken apart at its first sign in one way only. -/
theorem eq_of_at {m m' r r' : String} (hm : '@' ∉ m.toList) (hm' : '@' ∉ m'.toList)
    (h : m ++ "@" ++ r = m' ++ "@" ++ r') : m = m' ∧ r = r' := by
  have hparts := cutAt_at hm r
  rw [h, cutAt_at hm' r', Prod.mk.injEq, Option.some.injEq] at hparts
  exact ⟨String.toList_inj.mp hparts.1.symm, String.toList_inj.mp hparts.2.symm⟩

/-! ## Operands that are read back -/

/-- The operands that are read back from their texts: those that a document can give, strings and
NaNs apart. -/
structure Recoverable (a : Operand) : Prop where
  given : ∃ order kind text, operand order kind text = .ok a
  noString : ∀ s, a ≠ .const (.string s)
  noNaN : ∀ x, a = .const (.float x) → x.isNaN = false

theorem float?_toHex_of_number {x : Binary64} (h : x.isNaN = false) :
    Literal.float? x.toHex.toList = some x := by
  rcases x.toHex_cases with ⟨hnan, -⟩ | ⟨hinfinite, -⟩ | hfinite
  · rw [h] at hnan
    cases hnan
  · exact Literal.float?_toHex_infinite hinfinite
  · exact Literal.float?_toHex_finite hfinite

/-- The names in operands that a document gives are identifiers. -/
theorem Recoverable.identifier (h : Recoverable a) :
    (∀ v, a = .var v → Identifier v.name.toList) ∧ ∀ name, a = .label name →
      Identifier name.toList := by
  obtain ⟨order, kind, text, hgiven⟩ := h.given
  obtain ⟨k, -, hk⟩ := Source.operand_eq_ok_iff.mp hgiven
  refine ⟨?_, ?_⟩
  · -- Only the kind of variables gives variables, and only that of labels gives labels.
    rintro v rfl
    cases k with
    | var =>
      obtain ⟨w, -, hname, hvw⟩ := operand?_var_iff.mp hk
      rwa [Operand.var.inj hvw]
    | _ => simp [operand?] at hk
  · rintro name rfl
    cases k with
    | label =>
      obtain ⟨hname, hlabel⟩ := operand?_label_iff.mp hk
      rwa [Operand.label.inj hlabel]
    | _ => simp [operand?] at hk

/-- What stands in front of the first sign of an operand's text, and what stands behind it. -/
inductive Spelled : String → String → Operand → Prop
  | named (v : Variable) : Spelled v.frame.mark v.name (.var v)
  | other {k : Kind} {rest : String} {a : Operand} (ha : operand? k rest = some a) :
    Spelled k.text rest a

/-- The text of an operand has a sign between the two parts of its spelling. -/
theorem Recoverable.exists_spelled (h : Recoverable a) :
    ∃ m r, '@' ∉ m.toList ∧ a.text = m ++ "@" ++ r ∧ Spelled m r a := by
  have hother : ∀ (k : Kind) (rest : String), a.text = k.text ++ "@" ++ rest →
      operand? k rest = some a →
      ∃ m r, '@' ∉ m.toList ∧ a.text = m ++ "@" ++ r ∧ Spelled m r a := by
    intro k rest htext ha
    exact ⟨k.text, rest, at_not_mem_kind k, htext, .other ha⟩
  cases a with
  | var v => exact ⟨v.frame.mark, v.name, at_not_mem_mark v.frame, rfl, .named v⟩
  | label name =>
    apply hother .label name rfl
    exact operand?_label_iff.mpr ⟨h.identifier.2 name rfl, rfl⟩
  | type t =>
    apply hother .type t.text rfl
    simp [operand?, typeOfText?_eq_some_iff.mpr rfl]
  | const c =>
    cases c with
    | int n =>
      apply hother .int (decimal n.toInt) rfl
      simp [operand?, Literal.int?_decimal]
    | float x =>
      apply hother .float x.toHex rfl
      simp [operand?, float?_toHex_of_number (h.noNaN x rfl)]
    | bool b =>
      cases b with
      | true => exact hother .bool "true" rfl rfl
      | false => exact hother .bool "false" rfl rfl
    | string s => exact absurd rfl (h.noString s)
    | nil => exact hother .nil "nil" rfl rfl

/-- No frame has the mark that is the name of a kind. -/
theorem mark_ne_kind (f : FrameName) (k : Kind) : f.mark ≠ k.text := by
  cases f <;> cases k <;> decide

/-- A spelling belongs to one operand. -/
theorem Spelled.unique {m m' r r' : String} (ha : Spelled m r a) (hb : Spelled m' r' b)
    (hm : m = m') (hr : r = r') : a = b := by
  cases ha with
  | named v =>
    cases hb with
    | named w =>
      have hframe : v.frame = w.frame := mark_injective hm
      have hvw : v = w := congrArg₂ Variable.mk hframe hr
      rw [hvw]
    | @other k => exact absurd hm (mark_ne_kind v.frame k)
  | @other k rest a ha =>
    cases hb with
    | named w => exact absurd hm.symm (mark_ne_kind w.frame k)
    | @other k' rest' b hb =>
      rw [Kind.text_injective hm, hr, hb] at ha
      exact (Option.some.inj ha).symm

/-- **Operands and their texts.** A text is read as a variable exactly if it is the mark of a frame,
the sign `@` and an identifier, and as a label exactly if it is an identifier; the variable has that
frame and that name, and the label has that name. Every operand that a document can give, strings
and NaNs apart, is read back from its text: a variable from the whole of it, any other operand from
what stands before the first sign, as the kind, and what stands behind it. Two such operands with
the same text are the same. -/
theorem operand_read_back (order : Nat) :
    (∀ text a, operand order "var" text = .ok a ↔
      ∃ (frame : FrameName) (name : String),
        text = frame.mark ++ "@" ++ name ∧ Identifier name.toList ∧ a = .var ⟨frame, name⟩) ∧
    (∀ text a, operand order "label" text = .ok a ↔
      Identifier text.toList ∧ a = .label text) ∧
    (∀ a, Recoverable a →
      (∀ v, a = .var v → operand order "var" a.text = .ok a) ∧
      ((∀ v, a ≠ .var v) → ∃ kind rest, '@' ∉ kind.toList ∧ a.text = kind ++ "@" ++ rest ∧
        operand order kind rest = .ok a)) ∧
    ∀ a b, Recoverable a → Recoverable b → a.text = b.text → a = b := by
  have hvar : ∀ text a, operand order "var" text = .ok a ↔ operand? .var text = some a :=
    fun _ _ => operand_text_iff .var
  refine ⟨?_, ?_, ?_, ?_⟩
  · intro text a
    rw [hvar, operand?_var_iff]
    constructor
    · rintro ⟨v, htext, hname, ha⟩
      exact ⟨v.frame, v.name, htext, hname, ha⟩
    · rintro ⟨frame, name, htext, hname, ha⟩
      exact ⟨⟨frame, name⟩, htext, hname, ha⟩
  · intro text a
    exact (operand_text_iff .label).trans operand?_label_iff
  · intro a ha
    constructor
    · rintro v rfl
      rw [hvar]
      exact operand?_var_iff.mpr ⟨v, rfl, ha.identifier.1 v rfl, rfl⟩
    · intro hne
      obtain ⟨m, r, hm, htext, hspelled⟩ := ha.exists_spelled
      refine ⟨m, r, hm, htext, ?_⟩
      cases hspelled with
      | named v => exact absurd rfl (hne v)
      | other hread => exact (operand_text_iff _).mpr hread
  · intro a b ha hb htext
    -- Both texts are cut at their first signs, where they agree.
    obtain ⟨m, r, hm, hatext, hspelled⟩ := ha.exists_spelled
    obtain ⟨m', r', hm', hbtext, hspelled'⟩ := hb.exists_spelled
    rw [hatext, hbtext] at htext
    obtain ⟨hmark, hrest⟩ := eq_of_at hm hm' htext
    exact hspelled.unique hspelled' hmark hrest

/-- The least integer is an operand that is read back from its text. -/
theorem operand_read_back_least :
    Recoverable (.const (.int Int64.minValue)) ∧
      ∃ kind rest, '@' ∉ kind.toList ∧
        (Operand.const (.int Int64.minValue)).text = kind ++ "@" ++ rest ∧
        operand 1 kind rest = .ok (.const (.int Int64.minValue)) := by
  have hgiven : operand 1 "int" "-9223372036854775808" = .ok (.const (.int Int64.minValue)) :=
    eq_ok_of_toOption (by decide +kernel)
  have h : Recoverable (.const (.int Int64.minValue)) :=
    ⟨⟨1, _, _, hgiven⟩, by simp, by simp⟩
  exact ⟨h, ((operand_read_back 1).2.2.1 _ h).2 (by simp)⟩

end Argument

end FrameCode
