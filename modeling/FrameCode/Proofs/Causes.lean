import FrameCode.Machine.Decision
import FrameCode.Proofs.Checks

/-!
# Causes by their origin

A cause of failure tells what kind of check has failed, because each kind of check has causes of its
own: operators complain about types and values, memory about frames and variables, labels about
missing definitions. Only the fetching of operands can find them malformed.
-/

namespace FrameCode

open FrameCode.Checks

/-! ## Operators -/

/-- The causes that operators give: values of a wrong type, and values outside the domain of an
operator. -/
def Cause.OfOperator : Cause → Prop
  | .typeMismatch | .divisionByZero | .floatOutOfRange _ | .stringIndexOutOfRange _ _
  | .invalidCodePoint _ | .emptyReplacement => True
  | _ => False

namespace Operator

theorem equals_failsOnly (a b : Value) : FailsOnly Cause.OfOperator (equals a b) := by
  unfold equals
  split
  · exact failsOnly_ok _
  · exact failsOnly_ok _
  · split
    · exact failsOnly_ok _
    · exact failsOnly_error trivial

theorem less_failsOnly (a b : Value) : FailsOnly Cause.OfOperator (less a b) := by
  unfold less
  split
  any_goals exact failsOnly_ok _
  exact failsOnly_error trivial

theorem charAt_failsOnly (s : String) (i : Int64) : FailsOnly Cause.OfOperator (charAt s i) := by
  unfold charAt
  dsimp only
  split
  · exact failsOnly_ok _
  · exact failsOnly_error trivial

theorem setChar_failsOnly (a b c : Value) : FailsOnly Cause.OfOperator (setChar a b c) := by
  unfold setChar
  split
  · rename_i s i r
    split
    · rename_i e he
      exact failsOnly_error (charAt_failsOnly s i e he)
    · exact failsOnly_error trivial
    · exact failsOnly_ok _
  · exact failsOnly_error trivial

end Operator

theorem BinaryOperator.eval_failsOnly (f : BinaryOperator) (a b : Value) :
    FailsOnly Cause.OfOperator (f.eval a b) := by
  cases f with
  | less => exact failsOnly_map (Operator.less_failsOnly a b)
  | greater => exact failsOnly_map (Operator.less_failsOnly b a)
  | equals => exact failsOnly_map (Operator.equals_failsOnly a b)
  | add | sub | mul =>
    -- Two integers, two floats, or a mismatch.
    simp only [eval, Operator.add, Operator.sub, Operator.mul]
    split
    · exact failsOnly_ok _
    · exact failsOnly_ok _
    · exact failsOnly_error trivial
  | intDivide | divide =>
    simp only [eval, Operator.intDivide, Operator.divide]
    split
    · split
      · exact failsOnly_error trivial
      · exact failsOnly_ok _
    · exact failsOnly_error trivial
  | and | or | concat =>
    simp only [eval, Operator.and, Operator.or, Operator.concat]
    split
    · exact failsOnly_ok _
    · exact failsOnly_error trivial
  | codeAt | getChar =>
    simp only [eval, Operator.codeAt, Operator.getChar]
    split
    · exact failsOnly_map (Operator.charAt_failsOnly _ _)
    · exact failsOnly_error trivial

theorem UnaryOperator.eval_failsOnly (f : UnaryOperator) (a : Value) :
    FailsOnly Cause.OfOperator (f.eval a) := by
  cases f with
  | not | toFloat | length =>
    simp only [eval, Operator.not, Operator.toFloat, Operator.length]
    split
    · exact failsOnly_ok _
    · exact failsOnly_error trivial
  | ofCode =>
    simp only [eval, Operator.ofCode]
    split
    · split
      · exact failsOnly_ok _
      · exact failsOnly_error trivial
    · exact failsOnly_error trivial
  | toInt =>
    simp only [eval, Operator.toInt]
    split
    · split
      · exact failsOnly_ok _
      · exact failsOnly_error trivial
    · exact failsOnly_error trivial

/-! ## Memory -/

namespace Memory

/-- Looking for a cell fails for a missing frame or a missing declaration. -/
theorem cell_failsOnly (m : Memory) (v : Variable) :
    FailsOnly (fun c => c = .missingFrame v.frame ∨ c = .undefinedVariable v) (m.cell v) := by
  refine failsOnly_bind ?_ ?_
  · unfold frame
    split
    · exact failsOnly_ok _
    · exact failsOnly_error (.inl rfl)
  · intro f _
    split
    · exact failsOnly_ok _
    · exact failsOnly_error (.inr rfl)

/-- Looking for a value fails for what a cell fails for, or for a cell that is unset. -/
theorem value_failsOnly (m : Memory) (v : Variable) :
    FailsOnly (fun c => c = .missingFrame v.frame ∨ c = .undefinedVariable v ∨ c = .missingValue v)
      (m.value v) := by
  refine failsOnly_bind ?_ ?_
  · refine (m.cell_failsOnly v).mono ?_
    rintro c (h | h)
    · exact .inl h
    · exact .inr (.inl h)
  · intro x _
    split
    · exact failsOnly_ok _
    · exact failsOnly_error (.inr (.inr rfl))

end Memory

/-! ## Labels -/

namespace Machine

theorem labelArgument_failsOnly (i : Instruction) (n : Nat) :
    FailsOnly (fun c => c = .invalidOperand) (labelArgument i n) := by
  refine failsOnly_bind ?_ ?_
  · unfold argument
    split
    · exact failsOnly_ok _
    · exact failsOnly_error rfl
  · intro a _
    split
    · exact failsOnly_ok _
    · exact failsOnly_error rfl

/-- Looking for the target of a jump fails for an operand that is no label, or for a label that is
not defined. -/
theorem target_failsOnly (p : Program) (i : Instruction) :
    FailsOnly (fun c => c = .invalidOperand ∨ ∃ name, c = .undefinedLabel name) (target p i) := by
  refine failsOnly_bind ((labelArgument_failsOnly i 0).mono fun _ => .inl) ?_
  intro name _
  split
  · exact failsOnly_ok _
  · exact failsOnly_error (.inr ⟨name, rfl⟩)

end Machine

end FrameCode
