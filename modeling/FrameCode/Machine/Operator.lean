import FrameCode.Machine.Fault

/-!
# Operators

What the operators of the language compute, apart from where their operands come from: the
three-address opcodes and the stack opcodes share these functions. Operands are never converted from
one type to another, and an operator looks at the types of all its operands before it looks at their
values.
-/

namespace FrameCode.Operator

/-! ## Arithmetic -/

/-- The sum (`ADD`, `ADDS`); integers wrap around at 64 bits. -/
def add : Value → Value → Except Cause Value
  | .int m, .int n => .ok (.int (m + n))
  | .float x, .float y => .ok (.float (x.add y))
  | _, _ => .error .typeMismatch

/-- The difference (`SUB`, `SUBS`); integers wrap around at 64 bits. -/
def sub : Value → Value → Except Cause Value
  | .int m, .int n => .ok (.int (m - n))
  | .float x, .float y => .ok (.float (x.sub y))
  | _, _ => .error .typeMismatch

/-- The product (`MUL`, `MULS`); integers wrap around at 64 bits. -/
def mul : Value → Value → Except Cause Value
  | .int m, .int n => .ok (.int (m * n))
  | .float x, .float y => .ok (.float (x.mul y))
  | _, _ => .error .typeMismatch

/-- The quotient of words rounded down. The quotient of words goes toward zero, so it is one too
large exactly if the division leaves a remainder and the signs differ. -/
def floorDiv (m n : Int64) : Int64 :=
  if m % n ≠ 0 ∧ (decide (m < 0) ≠ decide (n < 0)) then m / n - 1 else m / n

/-- The quotient of integers rounded down (`IDIV`, `IDIVS`). -/
def intDivide : Value → Value → Except Cause Value
  | .int m, .int n => if n = 0 then .error .divisionByZero else .ok (.int (floorDiv m n))
  | _, _ => .error .typeMismatch

/-- The quotient of floating-point numbers (`DIV`); either zero is refused as a divisor. -/
def divide : Value → Value → Except Cause Value
  | .float x, .float y =>
    if y.isZero then .error .divisionByZero else .ok (.float (x.div y))
  | _, _ => .error .typeMismatch

/-! ## Comparison -/

/-- Whether two values are equal (`EQ`, `EQS` and the conditional jumps). Nil equals nil alone;
otherwise both values need the same type. -/
def equals : Value → Value → Except Cause Bool
  | .nil, b => .ok (b.type == .nil)
  | _, .nil => .ok false
  | a, b => if a.sameType b then .ok (a.equal b) else .error .typeMismatch

/-- Whether one value is less than another of the same type (`LT`, `LTS`), nil excepted: false is
less than true, and texts are ordered by code point. -/
def less : Value → Value → Except Cause Bool
  | .int m, .int n => .ok (decide (m < n))
  | .float x, .float y => .ok (x.less y)
  | .bool a, .bool b => .ok (!a && b)
  | .string s, .string t => .ok (decide (s < t))
  | _, _ => .error .typeMismatch

/-- Whether one value is greater than another (`GT`, `GTS`). -/
def greater (a b : Value) : Except Cause Bool :=
  less b a

/-! ## Logic -/

/-- The conjunction (`AND`, `ANDS`), with both operands looked at. -/
def and : Value → Value → Except Cause Value
  | .bool a, .bool b => .ok (.bool (a && b))
  | _, _ => .error .typeMismatch

/-- The disjunction (`OR`, `ORS`), with both operands looked at. -/
def or : Value → Value → Except Cause Value
  | .bool a, .bool b => .ok (.bool (a || b))
  | _, _ => .error .typeMismatch

/-- The negation (`NOT`, `NOTS`). -/
def not : Value → Except Cause Value
  | .bool a => .ok (.bool (!a))
  | _ => .error .typeMismatch

/-! ## Texts -/

/-- The character with a code, if the code is a Unicode scalar value. -/
def charOfCode? (code : Int64) : Option Char :=
  let n := code.toInt
  if 0 ≤ n ∧ n.toNat.isValidChar then some (Char.ofNat n.toNat) else none

/-- The text of the one character with a code (`INT2CHAR`, `INT2CHARS`). -/
def ofCode : Value → Except Cause Value
  | .int code =>
    match charOfCode? code with
    | some c => .ok (.string (String.ofList [c]))
    | none => .error (.invalidCodePoint code)
  | _ => .error .typeMismatch

/-- The character of a text at an index, counted in code points from zero. -/
def charAt (s : String) (index : Int64) : Except Cause Char :=
  let found := if 0 ≤ index.toInt then s.toList[index.toInt.toNat]? else none
  match found with
  | some c => .ok c
  | none => .error (.stringIndexOutOfRange index s.length)

/-- The code of a character of a text (`STRI2INT`, `STRI2INTS`). -/
def codeAt : Value → Value → Except Cause Value
  | .string s, .int i => (charAt s i).map fun c => .int (Int64.ofNat c.toNat)
  | _, _ => .error .typeMismatch

/-- Two texts one after the other (`CONCAT`). -/
def concat : Value → Value → Except Cause Value
  | .string s, .string t => .ok (.string (s ++ t))
  | _, _ => .error .typeMismatch

/-- The number of characters of a text (`STRLEN`). -/
def length : Value → Except Cause Value
  | .string s => .ok (.int (Int64.ofNat s.length))
  | _ => .error .typeMismatch

/-- One character of a text, as a text (`GETCHAR`). -/
def getChar : Value → Value → Except Cause Value
  | .string s, .int i => (charAt s i).map fun c => .string (String.ofList [c])
  | _, _ => .error .typeMismatch

/-- A text with the character at an index replaced by the first character of another text
(`SETCHAR`). An index out of range is found before an empty replacement. -/
def setChar : Value → Value → Value → Except Cause Value
  | .string s, .int i, .string r =>
    match charAt s i, r.toList with
    | .error e, _ => .error e
    | .ok _, [] => .error .emptyReplacement
    | .ok _, c :: _ => .ok (.string (String.ofList (s.toList.set i.toInt.toNat c)))
  | _, _, _ => .error .typeMismatch

/-! ## Conversions -/

/-- The floating-point number nearest to an integer (`INT2FLOAT`). -/
def toFloat : Value → Except Cause Value
  | .int n => .ok (.float (Binary64.ofInt n.toInt))
  | _ => .error .typeMismatch

/-- The integer that a floating-point number denotes without its digits after the point
(`FLOAT2INT`). What is left of the number is compared with `-2 ^ 63` and `2 ^ 63`, which are
floating-point numbers too. The second is no word, so the number has to be less. -/
def toInt : Value → Except Cause Value
  | .float x =>
    let t := x.integral
    let limit := Binary64.powerOfTwo 63
    if t.isFinite && !t.less limit.neg && t.less limit then .ok (.int (Int64.ofInt t.toInteger))
    else .error (.floatOutOfRange x)
  | _ => .error .typeMismatch

end FrameCode.Operator

namespace FrameCode

/-! ## The operators as data -/

/-- The operators on two values. -/
inductive BinaryOperator where
  | add
  | sub
  | mul
  | intDivide
  | divide
  | less
  | greater
  | equals
  | and
  | or
  | codeAt
  | concat
  | getChar
deriving DecidableEq, Inhabited

/-- The result of a binary operator. -/
def BinaryOperator.eval : BinaryOperator → Value → Value → Except Cause Value
  | add, a, b => Operator.add a b
  | sub, a, b => Operator.sub a b
  | mul, a, b => Operator.mul a b
  | intDivide, a, b => Operator.intDivide a b
  | divide, a, b => Operator.divide a b
  | less, a, b => (Operator.less a b).map .bool
  | greater, a, b => (Operator.greater a b).map .bool
  | equals, a, b => (Operator.equals a b).map .bool
  | and, a, b => Operator.and a b
  | or, a, b => Operator.or a b
  | codeAt, a, b => Operator.codeAt a b
  | concat, a, b => Operator.concat a b
  | getChar, a, b => Operator.getChar a b

/-- The operators on one value. -/
inductive UnaryOperator where
  | not
  | ofCode
  | toFloat
  | toInt
  | length
deriving DecidableEq, Inhabited

/-- The result of a unary operator. -/
def UnaryOperator.eval : UnaryOperator → Value → Except Cause Value
  | not, a => Operator.not a
  | ofCode, a => Operator.ofCode a
  | toFloat, a => Operator.toFloat a
  | toInt, a => Operator.toInt a
  | length, a => Operator.length a

end FrameCode
