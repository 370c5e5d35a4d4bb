import FrameCode.Language.Operand

/-!
# Runtime errors

An instruction fails for a **cause**; a runtime error is a cause together with the place of the
instruction that failed. The exit code depends on the cause alone.
-/

namespace FrameCode

/-- Why an instruction cannot be carried out. -/
inductive Cause where
  | undefinedLabel (name : String)
  | redefinedVariable (v : Variable)
  | typeMismatch
  | undefinedVariable (v : Variable)
  | missingFrame (frame : FrameName)
  /-- a variable that was declared and never assigned -/
  | missingValue (v : Variable)
  | callStackEmpty
  | dataStackUnderflow
  | divisionByZero
  | exitCodeOutOfRange (code : Int64)
  | floatOutOfRange (x : Binary64)
  | stringIndexOutOfRange (index : Int64) (length : Nat)
  | invalidCodePoint (code : Int64)
  | emptyReplacement
  /-- operands that do not fit the signature of the opcode -/
  | invalidOperand
  /-- a channel that refused to read or write -/
  | channel (reason : String)
deriving DecidableEq, Inhabited

/-- The exit code of a run that ends with this cause. -/
def Cause.exitCode : Cause → Nat
  | undefinedLabel _ | redefinedVariable _ => 52
  | typeMismatch => 53
  | undefinedVariable _ => 54
  | missingFrame _ => 55
  | missingValue _ | callStackEmpty | dataStackUnderflow => 56
  | divisionByZero | exitCodeOutOfRange _ | floatOutOfRange _ => 57
  | stringIndexOutOfRange _ _ | invalidCodePoint _ | emptyReplacement => 58
  | invalidOperand => 32
  | channel _ => 99

/-- A cause and the place of the instruction that failed. -/
structure Fault where
  cause : Cause
  place : Nat
deriving DecidableEq, Inhabited

namespace Fault

def exitCode (e : Fault) : Nat :=
  e.cause.exitCode

/-- The message that is shown for an error. -/
def message (e : Fault) : String :=
  let here := " at instruction " ++ e.place.repr
  match e.cause with
  | .undefinedLabel name => "undefined label '" ++ name ++ "'" ++ here
  | .redefinedVariable v => "variable " ++ v.text ++ " redefined" ++ here
  | .typeMismatch => "wrong operand type" ++ here
  | .undefinedVariable v => "undefined variable " ++ v.text ++ here
  | .missingFrame frame => "frame " ++ frame.mark ++ " does not exist" ++ here
  | .missingValue v => "variable " ++ v.text ++ " has no value" ++ here
  | .callStackEmpty => "RETURN with empty call stack" ++ here
  | .dataStackUnderflow => "data stack underflow" ++ here
  | .divisionByZero => "division by zero" ++ here
  | .exitCodeOutOfRange code => "exit code " ++ Text.decimal code.toInt ++ " out of range" ++ here
  | .floatOutOfRange x => "float " ++ x.toHex ++ " cannot be converted to int" ++ here
  | .stringIndexOutOfRange index length =>
    "string index " ++ Text.decimal index.toInt ++ " out of range (length " ++ length.repr ++ ")"
      ++ here
  | .invalidCodePoint code => "invalid code point " ++ Text.decimal code.toInt ++ here
  | .emptyReplacement => "empty replacement string" ++ here
  | .invalidOperand => "malformed operands" ++ here
  | .channel reason => "I/O failure" ++ here ++ ": " ++ reason

end Fault

end FrameCode
