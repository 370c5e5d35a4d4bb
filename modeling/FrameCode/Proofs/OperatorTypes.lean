import FrameCode.Proofs.Causes
import FrameCode.Proofs.Comparisons

/-!
# The types of operators

What an operator makes of its operands depends on their types first: for some types it has a result
of one type, and for all others it complains about the types, whatever the values are. The tables
`UnaryOperator.resultType?`, `BinaryOperator.resultType?` and `setCharType?` tell which.

`Follows` says of an outcome that it is what a table announces, and each operator is shown to follow
its table. The causes that an operator has besides the mismatch of types are about values
(`Cause.OfValue`), so they come up for operands of the right types only.
-/

namespace FrameCode

open FrameCode.Checks

variable {t u : ValueType} {t? : Option ValueType} {r : Except Cause Value} {v : Value} {e : Cause}

/-! ## Tables of types -/

/-- The type of the result for an operand of a type that the operator takes. -/
def UnaryOperator.resultType? : UnaryOperator → ValueType → Option ValueType
  | not, .bool => some .bool
  | ofCode, .int => some .string
  | toFloat, .int => some .float
  | toInt, .float => some .int
  | length, .string => some .int
  | _, _ => none

/-- The type of the result for operands of types that the operator takes. -/
def BinaryOperator.resultType? : BinaryOperator → ValueType → ValueType → Option ValueType
  | add, .int, .int | sub, .int, .int | mul, .int, .int | intDivide, .int, .int => some .int
  | add, .float, .float | sub, .float, .float | mul, .float, .float | divide, .float, .float =>
    some .float
  | less, t, u | greater, t, u => if t = u ∧ t ≠ .nil then some .bool else none
  | equals, t, u => if t = u ∨ t = .nil ∨ u = .nil then some .bool else none
  | and, .bool, .bool | or, .bool, .bool => some .bool
  | codeAt, .string, .int => some .int
  | concat, .string, .string | getChar, .string, .int => some .string
  | _, _, _ => none

/-- The type of a text with a character replaced. -/
def setCharType? : ValueType → ValueType → ValueType → Option ValueType
  | .string, .int, .string => some .string
  | _, _, _ => none

/-- The causes that are about the values of operands of the right types. -/
def Cause.OfValue : Cause → Prop
  | .divisionByZero | .floatOutOfRange _ | .stringIndexOutOfRange _ _ | .invalidCodePoint _
  | .emptyReplacement => True
  | _ => False

theorem Cause.OfOperator.ofValue (h : e.OfOperator) (hne : e ≠ .typeMismatch) : e.OfValue := by
  cases e with
  | typeMismatch => exact absurd rfl hne
  | divisionByZero | floatOutOfRange | stringIndexOutOfRange | invalidCodePoint
  | emptyReplacement => trivial
  | undefinedLabel | redefinedVariable | undefinedVariable | missingFrame | missingValue
  | callStackEmpty | dataStackUnderflow | exitCodeOutOfRange | invalidOperand | channel =>
    exact absurd h id

/-! ## Outcomes that follow a table -/

/-- An outcome is a mismatch of types if the table has no entry, and otherwise no such mismatch, and
a result has the type of the entry. -/
def Follows : Option ValueType → Except Cause Value → Prop
  | none, r => r = .error .typeMismatch
  | some t, r => r ≠ .error .typeMismatch ∧ ∀ v, r = .ok v → v.type = t

theorem follows_ok (h : v.type = t) : Follows (some t) (.ok v) := by
  refine ⟨nofun, fun w hw => ?_⟩
  cases hw
  exact h

theorem follows_error (h : e ≠ .typeMismatch) : Follows (some t) (.error e) := by
  refine ⟨fun heq => ?_, nofun⟩
  cases heq
  exact h rfl

/-- A value that is looked at once the types are right. -/
theorem follows_guard {p : Prop} [Decidable p] (he : e ≠ .typeMismatch) (hv : v.type = t) :
    Follows (some t) (if p then .error e else .ok v) := by
  split
  · exact follows_error he
  · exact follows_ok hv

/-- A comparison that fails outside of a condition on the types, and only there. -/
theorem follows_comparison {p : Prop} [Decidable p] {x : Except Cause Bool}
    (h : x = .error .typeMismatch ↔ ¬p) :
    Follows (if p then some .bool else none) (x.map .bool) := by
  by_cases hp : p
  · rw [if_pos hp]
    refine ⟨fun heq => h.mp (map_eq_error.mp heq) hp, fun v hv => ?_⟩
    obtain ⟨b, -, rfl⟩ := map_eq_ok.mp hv
    rfl
  · rw [if_neg hp]
    exact map_eq_error.mpr (h.mpr hp)

/-- A missing character is no mismatch of types. -/
theorem ne_typeMismatch_of_charAt {s : String} {i : Int64} (h : Operator.charAt s i = .error e) :
    e ≠ .typeMismatch := by
  unfold Operator.charAt at h
  dsimp only at h
  split at h
  · cases h
  · cases h
    exact nofun

/-- What is made of a character of a text follows the table. -/
theorem follows_charAt {g : Char → Value} (s : String) (i : Int64) (h : ∀ c, (g c).type = t) :
    Follows (some t) ((Operator.charAt s i).map g) := by
  rcases hc : Operator.charAt s i with e | c
  · exact follows_error (ne_typeMismatch_of_charAt hc)
  · exact follows_ok (h c)

theorem Follows.mismatch_iff (h : Follows t? r) : r = .error .typeMismatch ↔ t? = none := by
  cases t? with
  | none => exact iff_of_true h rfl
  | some t => exact iff_of_false h.1 nofun

theorem Follows.type_eq (h : Follows t? r) (hv : r = .ok v) : t? = some v.type := by
  cases t? with
  | none =>
    have hmismatch : r = .error .typeMismatch := h
    rw [hmismatch] at hv
    cases hv
  | some t => rw [h.2 v hv]

theorem Value.eq_nil_iff (a : Value) : a = .nil ↔ a.type = .nil := by
  cases a <;> simp [type]

/-! ## Operators follow their tables

Once the operands are of given constructors, the table has its entry and the operator has taken its
branch. -/

theorem UnaryOperator.follows (f : UnaryOperator) (a : Value) :
    Follows (f.resultType? a.type) (f.eval a) := by
  cases f with
  | not =>
    cases a with
    | bool x => exact follows_ok rfl
    | int | float | string | nil => rfl
  | ofCode =>
    cases a with
    | int n =>
      show Follows (some .string) (Operator.ofCode (.int n))
      unfold Operator.ofCode
      dsimp only
      split
      · exact follows_ok rfl
      · exact follows_error nofun
    | float | bool | string | nil => rfl
  | toFloat =>
    cases a with
    | int n => exact follows_ok rfl
    | float | bool | string | nil => rfl
  | toInt =>
    cases a with
    | float x =>
      show Follows (some .int) (Operator.toInt (.float x))
      unfold Operator.toInt
      dsimp only
      split
      · exact follows_ok rfl
      · exact follows_error nofun
    | int | bool | string | nil => rfl
  | length =>
    cases a with
    | string s => exact follows_ok rfl
    | int | float | bool | nil => rfl

theorem BinaryOperator.follows (f : BinaryOperator) (a b : Value) :
    Follows (f.resultType? a.type b.type) (f.eval a b) := by
  cases f with
  | add | sub | mul =>
    cases a with
    | int m =>
      cases b with
      | int n => exact follows_ok rfl
      | float | bool | string | nil => rfl
    | float x =>
      cases b with
      | float y => exact follows_ok rfl
      | int | bool | string | nil => rfl
    | bool | string | nil => rfl
  | intDivide =>
    cases a with
    | int m =>
      cases b with
      | int n => exact follows_guard nofun rfl
      | float | bool | string | nil => rfl
    | float | bool | string | nil => rfl
  | divide =>
    cases a with
    | float x =>
      cases b with
      | float y => exact follows_guard nofun rfl
      | int | bool | string | nil => rfl
    | int | bool | string | nil => rfl
  | less =>
    apply follows_comparison
    rw [Operator.less_eq_error_iff, Value.eq_nil_iff, Value.eq_nil_iff]
    grind
  | greater =>
    apply follows_comparison
    rw [Operator.greater, Operator.less_eq_error_iff, Value.eq_nil_iff, Value.eq_nil_iff]
    grind
  | equals =>
    apply follows_comparison
    rw [Operator.equals_eq_error_iff, ne_eq, ne_eq, ne_eq, Value.eq_nil_iff, Value.eq_nil_iff]
    grind
  | and | or =>
    cases a with
    | bool x =>
      cases b with
      | bool y => exact follows_ok rfl
      | int | float | string | nil => rfl
    | int | float | string | nil => rfl
  | codeAt | getChar =>
    cases a with
    | string s =>
      cases b with
      | int i => exact follows_charAt s i fun _ => rfl
      | float | bool | string | nil => rfl
    | int | float | bool | nil => rfl
  | concat =>
    cases a with
    | string s =>
      cases b with
      | string t => exact follows_ok rfl
      | int | float | bool | nil => rfl
    | int | float | bool | nil => rfl

theorem setChar_follows (a b c : Value) :
    Follows (setCharType? a.type b.type c.type) (Operator.setChar a b c) := by
  cases a with
  | string s =>
    cases b with
    | int i =>
      cases c with
      | string r =>
        show Follows (some .string) (Operator.setChar (.string s) (.int i) (.string r))
        unfold Operator.setChar
        dsimp only
        split
        · -- The error of a missing character is passed on.
          rename_i e he
          exact follows_error (ne_typeMismatch_of_charAt he)
        · exact follows_error nofun
        · exact follows_ok rfl
      | int | float | bool | nil => rfl
    | float | bool | string | nil => rfl
  | int | float | bool | nil => rfl

/-! ## Numbers of the two kinds -/

/-- No operator takes a number of each kind. -/
theorem BinaryOperator.resultType?_mixed (f : BinaryOperator) :
    f.resultType? .int .float = none ∧ f.resultType? .float .int = none := by
  cases f <;> exact ⟨rfl, rfl⟩

/-- A floating-point number is made of two, and no integer is made of one. -/
theorem BinaryOperator.number_of_resultType? (f : BinaryOperator) (t u : ValueType) :
    (f.resultType? t u = some .float → t = .float ∧ u = .float) ∧
      (f.resultType? t u = some .int → t ≠ .float ∧ u ≠ .float) := by
  cases f <;> cases t <;> cases u <;> decide

/-! ## Applications -/

/-- An operator with operands. -/
inductive Application where
  | unary (f : UnaryOperator) (a : Value)
  | binary (f : BinaryOperator) (a b : Value)
  | setChar (a b c : Value)

namespace Application

variable {x y : Application}

def result : Application → Except Cause Value
  | unary f a => f.eval a
  | binary f a b => f.eval a b
  | setChar a b c => Operator.setChar a b c

/-- The type that the table of the operator has for the types of the operands. -/
def resultType? : Application → Option ValueType
  | unary f a => f.resultType? a.type
  | binary f a b => f.resultType? a.type b.type
  | setChar a b c => setCharType? a.type b.type c.type

/-- Applications of one operator to operands of the same types, one by one. -/
inductive SameTypes : Application → Application → Prop
  | unary {f : UnaryOperator} {a a' : Value} (ha : a.type = a'.type) :
    SameTypes (.unary f a) (.unary f a')
  | binary {f : BinaryOperator} {a b a' b' : Value} (ha : a.type = a'.type)
    (hb : b.type = b'.type) : SameTypes (.binary f a b) (.binary f a' b')
  | setChar {a b c a' b' c' : Value} (ha : a.type = a'.type) (hb : b.type = b'.type)
    (hc : c.type = c'.type) : SameTypes (.setChar a b c) (.setChar a' b' c')

theorem SameTypes.resultType?_eq (h : SameTypes x y) : x.resultType? = y.resultType? := by
  cases h with
  | unary ha => simp only [resultType?, ha]
  | binary ha hb => simp only [resultType?, ha, hb]
  | setChar ha hb hc => simp only [resultType?, ha, hb, hc]

theorem follows (x : Application) : Follows x.resultType? x.result := by
  cases x with
  | unary f a => exact f.follows a
  | binary f a b => exact f.follows a b
  | setChar a b c => exact setChar_follows a b c

theorem result_failsOnly (x : Application) : FailsOnly Cause.OfOperator x.result := by
  cases x with
  | unary f a => exact f.eval_failsOnly a
  | binary f a b => exact f.eval_failsOnly a b
  | setChar a b c => exact Operator.setChar_failsOnly a b c

/-- A cause about a value is given for operands of types that the operator takes. -/
theorem ofValue_of_error (h : x.result = .error e) (hne : e ≠ .typeMismatch) :
    e.OfValue ∧ ∃ t, x.resultType? = some t := by
  refine ⟨(x.result_failsOnly e h).ofValue hne, ?_⟩
  rcases ht : x.resultType? with _ | t
  · have hmismatch := x.follows.mismatch_iff.mpr ht
    rw [hmismatch] at h
    cases h
    exact absurd rfl hne
  · exact ⟨t, rfl⟩

/-- **Types decide first.** Whether an operator complains about the types of its operands depends on
these types only, and so does the type of its result: the tables tell both. Every other complaint
is about a value, and comes up for operands of types that the operator takes only. No operator takes
an integer and a floating-point number together, makes a floating-point number of anything but two
of them, or an integer of one. -/
theorem types_decide_first :
    (∀ x y : Application, SameTypes x y →
      (x.result = .error .typeMismatch ↔ y.result = .error .typeMismatch) ∧
      ∀ v w, x.result = .ok v → y.result = .ok w → v.type = w.type) ∧
    (∀ x : Application,
      (x.result = .error .typeMismatch ↔ x.resultType? = none) ∧
      (∀ v, x.result = .ok v → x.resultType? = some v.type) ∧
      ∀ e, x.result = .error e → e ≠ .typeMismatch →
        e.OfValue ∧ ∃ t, x.resultType? = some t) ∧
    ∀ (f : BinaryOperator) (a b : Value),
      (a.type = .int ∧ b.type = .float ∨ a.type = .float ∧ b.type = .int →
        f.eval a b = .error .typeMismatch) ∧
      ∀ v, f.eval a b = .ok v →
        (v.type = .float → a.type = .float ∧ b.type = .float) ∧
        (v.type = .int → a.type ≠ .float ∧ b.type ≠ .float) := by
  refine ⟨?_, fun x => ⟨x.follows.mismatch_iff, fun v => x.follows.type_eq,
    fun e => ofValue_of_error⟩, fun f a b => ⟨?_, ?_⟩⟩
  · intro x y h
    rw [x.follows.mismatch_iff, y.follows.mismatch_iff, h.resultType?_eq]
    refine ⟨Iff.rfl, fun v w hv hw => ?_⟩
    have hsome : some v.type = some w.type :=
      (x.follows.type_eq hv).symm.trans (h.resultType?_eq.trans (y.follows.type_eq hw))
    exact Option.some.inj hsome
  · intro hmixed
    apply (f.follows a b).mismatch_iff.mpr
    rcases hmixed with ⟨ha, hb⟩ | ⟨ha, hb⟩
    · rw [ha, hb]
      exact f.resultType?_mixed.1
    · rw [ha, hb]
      exact f.resultType?_mixed.2
  · intro v hv
    have htype := (f.follows a b).type_eq hv
    have hnumber := f.number_of_resultType? a.type b.type
    rw [htype] at hnumber
    exact ⟨fun h => hnumber.1 (by rw [h]), fun h => hnumber.2 (by rw [h])⟩

/-- A zero divisor is looked at for two integers only: with a floating-point number in front of it
the types are wrong, as they are for any other divisor. -/
theorem types_decide_first_zeroDivisor :
    SameTypes (.binary .intDivide (.int 1) (.int 0)) (.binary .intDivide (.int 1) (.int 2)) ∧
      (Application.binary .intDivide (.int 1) (.int 0)).result ≠ .error .typeMismatch ∧
      Cause.divisionByZero.OfValue ∧
      BinaryOperator.intDivide.eval (.float (Binary64.zero false)) (.int 0) =
        .error .typeMismatch := by
  have hsame : SameTypes (.binary .intDivide (.int 1) (.int 0))
      (.binary .intDivide (.int 1) (.int 2)) := .binary rfl rfl
  obtain ⟨htypes, hcauses, hmixed⟩ := types_decide_first
  refine ⟨hsame, ?_, ?_, (hmixed _ _ _).1 (.inr ⟨rfl, rfl⟩)⟩
  · -- The other divisor gives a result, so this one is no matter of types.
    intro hmismatch
    have hother := (htypes _ _ hsame).1.mp hmismatch
    exact absurd hother (by decide)
  · exact ((hcauses (.binary .intDivide (.int 1) (.int 0))).2.2 .divisionByZero rfl nofun).1

end Application

end FrameCode
