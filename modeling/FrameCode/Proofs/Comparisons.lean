import FrameCode.Machine.Operator
import FrameCode.Proofs.ByteOrder

/-!
# Comparisons

Integers, truth values and texts each have a linear order, which `less`, `equals` and `greater` tell
together. All three orders are one order on sequences of numbers, the first difference deciding:
a value of one of these types is coded as such a sequence (`orderKey`), and comparing two values of
one type is comparing their codes (`less_eq_decide`, `equals_eq_decide`). What holds of a linear
order holds of the operators then.

The code of a text is the sequence of the codes of its characters. `lex_encoded_iff` says that the
bytes of the encodings come in the same order.

Floating-point numbers are compared too, but a NaN is in no order. For all values it holds that
`equals` does not depend on which of them comes first, and that types decide about errors.
-/

namespace FrameCode.Operator

open FrameCode.Text

variable {a b c : Value} {e : Cause}

/-! ## Values of the ordered types -/

/-- Values of one type, and this type is one whose values are all in order. -/
def Comparable (a b : Value) : Prop :=
  a.type = b.type ∧ a.type ∈ [ValueType.int, ValueType.bool, ValueType.string]

/-- A value of an ordered type as a sequence of numbers: an integer by its distance from the least
one, a truth value as zero or one, a text by the codes of its characters. -/
def orderKey : Value → List ℕ
  | .int n => [(n.toInt - Int64.minValue.toInt).toNat]
  | .bool x => [x.toNat]
  | .string s => s.toList.map Char.toNat
  | .float _ | .nil => []

/-- Two values of one ordered type are two integers, two truth values or two texts. -/
theorem Comparable.cases (h : Comparable a b) :
    (∃ m n, a = .int m ∧ b = .int n) ∨ (∃ x y, a = .bool x ∧ b = .bool y) ∨
      ∃ s t, a = .string s ∧ b = .string t := by
  obtain ⟨htype, hordered⟩ := h
  cases a with
  | int m =>
    cases b with
    | int n => exact .inl ⟨m, n, rfl, rfl⟩
    | float | bool | string | nil => cases htype
  | bool x =>
    cases b with
    | bool y => exact .inr (.inl ⟨x, y, rfl, rfl⟩)
    | int | float | string | nil => cases htype
  | string s =>
    cases b with
    | string t => exact .inr (.inr ⟨s, t, rfl, rfl⟩)
    | int | float | bool | nil => cases htype
  | float | nil => simp [Value.type] at hordered

theorem Comparable.symm (h : Comparable a b) : Comparable b a :=
  ⟨h.1.symm, h.1 ▸ h.2⟩

theorem Comparable.trans (h : Comparable a b) (h' : Comparable b c) : Comparable a c :=
  ⟨h.1.trans h'.1, h.2⟩

/-! ## The order of codes -/

theorem keepsOrder_code : KeepsOrder fun c => [c.toNat] := by
  intro c d hlt x y
  exact .rel hlt

/-- Texts are in the order of the codes of their characters. -/
theorem lt_iff_lex_codes (s t : String) :
    s < t ↔ List.Lex (· < ·) (s.toList.map Char.toNat) (t.toList.map Char.toNat) := by
  rw [List.map_eq_flatMap, List.map_eq_flatMap]
  exact (lex_flatMap_iff (fun c => List.cons_ne_nil _ _) keepsOrder_code _ _).symm

theorem lt_iff_lex_encoded (s t : String) :
    s < t ↔ List.Lex (· < ·) (encoded s) (encoded t) :=
  (lex_encoded_iff s t).symm

theorem lt_iff_distance_lt (m n : Int64) :
    m < n ↔ (m.toInt - Int64.minValue.toInt).toNat < (n.toInt - Int64.minValue.toInt).toNat := by
  have hm := m.minValue_le_toInt
  have hn := n.minValue_le_toInt
  rw [Int64.lt_iff_toInt_lt]
  omega

/-- Values of one ordered type are ordered as their codes. -/
theorem less_eq_decide (h : Comparable a b) :
    less a b = .ok (decide (orderKey a < orderKey b)) := by
  rcases h.cases with ⟨m, n, rfl, rfl⟩ | ⟨x, y, rfl, rfl⟩ | ⟨s, t, rfl, rfl⟩
  · have hkey : m < n ↔ orderKey (.int m) < orderKey (.int n) :=
      (lt_iff_distance_lt m n).trans (List.lex_singleton_iff _ _).symm
    simp only [less, hkey]
  · cases x <;> cases y <;> decide
  · have hkey : s < t ↔ orderKey (.string s) < orderKey (.string t) := lt_iff_lex_codes s t
    simp only [less, hkey]

/-- Values of one ordered type are equal if their codes are. -/
theorem orderKey_inj (h : Comparable a b) : orderKey a = orderKey b ↔ a = b := by
  refine ⟨?_, fun heq => by rw [heq]⟩
  rcases h.cases with ⟨m, n, rfl, rfl⟩ | ⟨x, y, rfl, rfl⟩ | ⟨s, t, rfl, rfl⟩
  · intro heq
    have hdistance := List.singleton_inj.mp heq
    have hm := m.minValue_le_toInt
    have hn := n.minValue_le_toInt
    congr 1
    apply Int64.toInt_inj.mp
    omega
  · intro heq
    have hinj : ∀ x y : Bool, x.toNat = y.toNat → x = y := by decide
    congr 1
    exact hinj x y (List.singleton_inj.mp heq)
  · intro heq
    have hcodes : s.toList.map Char.toNat = t.toList.map Char.toNat := heq
    congr 1
    apply String.toList_injective
    exact List.map_injective_iff.mpr (fun _ _ => Char.toNat_inj.mp) hcodes

theorem equals_eq_decide (h : Comparable a b) :
    equals a b = .ok (decide (orderKey a = orderKey b)) := by
  simp only [orderKey_inj h]
  rcases h.cases with ⟨m, n, rfl, rfl⟩ | ⟨x, y, rfl, rfl⟩ | ⟨s, t, rfl, rfl⟩
  · simp only [Value.int.injEq]
    rfl
  · simp only [Value.bool.injEq]
    rfl
  · simp only [Value.string.injEq]
    rfl

/-! ## One linear order for each type -/

/-- Exactly one of three answers is true, and the others are false. -/
def ExactlyOne (x y z : Except Cause Bool) : Prop :=
  (x = .ok true ∧ y = .ok false ∧ z = .ok false) ∨
    (x = .ok false ∧ y = .ok true ∧ z = .ok false) ∨
    (x = .ok false ∧ y = .ok false ∧ z = .ok true)

theorem exactlyOne_compare (h : Comparable a b) :
    ExactlyOne (less a b) (equals a b) (greater a b) := by
  -- All three answers are about the codes, which are in a linear order.
  have hgreater : greater a b = .ok (decide (orderKey b < orderKey a)) := less_eq_decide h.symm
  rw [less_eq_decide h, equals_eq_decide h, hgreater]
  unfold ExactlyOne
  rcases lt_trichotomy (orderKey a) (orderKey b) with hlt | heq | hgt
  · left
    simp [hlt, hlt.ne, hlt.not_gt]
  · right
    left
    simp [heq]
  · right
    right
    simp [hgt, hgt.ne', hgt.not_gt]

theorem less_self (h : Comparable a a) : less a a = .ok false := by
  rw [less_eq_decide h]
  simp

theorem less_eq_true_iff (h : Comparable a b) :
    less a b = .ok true ↔ orderKey a < orderKey b := by
  rw [less_eq_decide h]
  simp

theorem less_trans (h : Comparable a b) (h' : Comparable b c) (hab : less a b = .ok true)
    (hbc : less b c = .ok true) : less a c = .ok true := by
  rw [less_eq_true_iff h] at hab
  rw [less_eq_true_iff h'] at hbc
  rw [less_eq_true_iff (h.trans h')]
  exact hab.trans hbc

theorem less_string_iff (s t : String) : less (.string s) (.string t) = .ok true ↔ s < t := by
  rw [less, Except.ok.injEq, decide_eq_true_iff]

/-! ## All values -/

/-- Values are compared for their order unless their types differ or one of them is nil. -/
theorem less_eq_error_iff :
    less a b = .error e ↔ e = .typeMismatch ∧ (a.type ≠ b.type ∨ a = .nil ∨ b = .nil) := by
  have hcomm : Cause.typeMismatch = e ↔ e = .typeMismatch := eq_comm
  cases a <;> cases b <;> simp [less, Value.type, hcomm]

theorem equals_nil_left (b : Value) : equals .nil b = .ok (decide (b = .nil)) := by
  cases b <;> rfl

theorem equals_nil_right (a : Value) : equals a .nil = .ok (decide (a = .nil)) := by
  cases a <;> rfl

theorem equals_of_ne_nil (ha : a ≠ .nil) (hb : b ≠ .nil) :
    equals a b = if a.type = b.type then .ok (a.equal b) else .error .typeMismatch := by
  unfold equals
  split
  · exact absurd rfl ha
  · exact absurd rfl hb
  · simp [Value.sameType]

theorem equal_comm_float (x y : Binary64) : x.equal y = y.equal x := by
  unfold Binary64.equal
  rw [Bool.and_comm (!x.isNaN) (!y.isNaN), decide_eq_decide.mpr eq_comm]

theorem equal_comm (a b : Value) : a.equal b = b.equal a := by
  cases a with
  | int m =>
    cases b with
    | int n => exact BEq.comm
    | float | bool | string | nil => rfl
  | float x =>
    cases b with
    | float y => exact equal_comm_float x y
    | int | bool | string | nil => rfl
  | bool x =>
    cases b with
    | bool y => exact BEq.comm
    | int | float | string | nil => rfl
  | string s =>
    cases b with
    | string t => exact BEq.comm
    | int | float | bool | nil => rfl
  | nil => cases b <;> rfl

/-- Which of two values comes first does not matter to their equality. -/
theorem equals_comm (a b : Value) : equals a b = equals b a := by
  by_cases ha : a = .nil
  · rw [ha, equals_nil_left, equals_nil_right]
  by_cases hb : b = .nil
  · rw [hb, equals_nil_left, equals_nil_right]
  rw [equals_of_ne_nil ha hb, equals_of_ne_nil hb ha, equal_comm a b, if_congr eq_comm rfl rfl]

/-- Values of two types cannot be compared for equality, unless one of them is nil. -/
theorem equals_eq_error_iff :
    equals a b = .error e ↔ e = .typeMismatch ∧ a.type ≠ b.type ∧ a ≠ .nil ∧ b ≠ .nil := by
  by_cases ha : a = .nil
  · rw [ha, equals_nil_left]
    simp
  by_cases hb : b = .nil
  · rw [hb, equals_nil_right]
    simp
  rw [equals_of_ne_nil ha hb]
  by_cases htype : a.type = b.type
  · simp [htype]
  · simp [htype, ha, hb, eq_comm]

/-- **Comparisons.** Of two integers, two truth values or two texts exactly one is true: the first
is less, they are equal, the first is greater. No value is less than itself, and a value less than
one that is less than a third is less than the third. Texts are in the lexicographic order of the
codes of their characters, which is that of the bytes of their encodings. For all values, `greater`
is `less` the other way round and `equals` is the same the other way round, errors included. An
order is asked for in vain exactly if the types differ or one value is nil, and equality exactly if
the types differ and no value is nil; nil equals nil alone. -/
theorem comparisons_consistent :
    (∀ a b, Comparable a b → ExactlyOne (less a b) (equals a b) (greater a b)) ∧
    (∀ a, Comparable a a → less a a = .ok false) ∧
    (∀ a b c, Comparable a b → Comparable b c →
      less a b = .ok true → less b c = .ok true → less a c = .ok true) ∧
    (∀ s t : String,
      (less (.string s) (.string t) = .ok true ↔
        List.Lex (· < ·) (s.toList.map Char.toNat) (t.toList.map Char.toNat)) ∧
      (less (.string s) (.string t) = .ok true ↔ List.Lex (· < ·) (encoded s) (encoded t))) ∧
    (∀ a b, greater a b = less b a ∧ equals a b = equals b a) ∧
    (∀ a b e,
      (less a b = .error e ↔ e = .typeMismatch ∧ (a.type ≠ b.type ∨ a = .nil ∨ b = .nil)) ∧
      (equals a b = .error e ↔ e = .typeMismatch ∧ a.type ≠ b.type ∧ a ≠ .nil ∧ b ≠ .nil)) ∧
    ∀ a b, a = .nil ∨ b = .nil → equals a b = .ok (decide (a = .nil ∧ b = .nil)) := by
  refine ⟨fun a b => exactlyOne_compare, fun a => less_self, fun a b c => less_trans, ?_,
    fun a b => ⟨rfl, equals_comm a b⟩, fun a b e => ⟨less_eq_error_iff, equals_eq_error_iff⟩, ?_⟩
  · intro s t
    rw [less_string_iff]
    exact ⟨lt_iff_lex_codes s t, lt_iff_lex_encoded s t⟩
  · rintro a b (rfl | rfl)
    · rw [equals_nil_left]
      simp
    · rw [equals_nil_right]
      simp

/-- Texts with characters of one, three and four bytes. The code of the last one is above that of
the one before, though a pair of surrogates would come below it. -/
theorem comparisons_consistent_threeTexts :
    Comparable (.string "z") (.string "\uffee") ∧ Comparable (.string "\uffee") (.string "😀") ∧
      less (.string "z") (.string "\uffee") = .ok true ∧
      less (.string "\uffee") (.string "😀") = .ok true ∧
      less (.string "z") (.string "😀") = .ok true ∧
      ExactlyOne (less (.string "z") (.string "\uffee")) (equals (.string "z") (.string "\uffee"))
        (greater (.string "z") (.string "\uffee")) ∧
      equals .nil (.string "z") = .ok (decide (Value.nil = .nil ∧ Value.string "z" = .nil)) := by
  have hfirst : Comparable (.string "z") (.string "\uffee") := ⟨rfl, by decide⟩
  have hsecond : Comparable (.string "\uffee") (.string "😀") := ⟨rfl, by decide⟩
  have hless : less (.string "z") (.string "\uffee") = .ok true := by decide
  have hless' : less (.string "\uffee") (.string "😀") = .ok true := by decide
  obtain ⟨hone, -, htrans, -, -, -, hnil⟩ := comparisons_consistent
  exact ⟨hfirst, hsecond, hless, hless', htrans _ _ _ hfirst hsecond hless hless', hone _ _ hfirst,
    hnil _ _ (.inl rfl)⟩

end FrameCode.Operator
