import FrameCode.Language.Opcode
import FrameCode.Machine.Operator

/-!
# Operations: what the opcodes have in common

Many opcodes differ only in the operator they apply. An operation is an opcode up to that
difference, so the rules of the machine are stated once for all three-address operators, once for
all stack operators, and so on.
-/

namespace FrameCode

/-- The ways in which an instruction acts. -/
inductive Operation where
  | move
  | createFrame
  | pushFrame
  | popFrame
  /-- `DEFVAR` -/
  | declare
  | call
  /-- `RETURN` -/
  | comeBack
  /-- `PUSHS` -/
  | push
  /-- `POPS` -/
  | pop
  /-- `CLEARS` -/
  | clear
  /-- a binary operator on two operands, its result assigned -/
  | binary (f : BinaryOperator)
  /-- a unary operator on an operand, its result assigned -/
  | unary (f : UnaryOperator)
  /-- a binary operator on the two top values of the data stack -/
  | stackBinary (f : BinaryOperator)
  /-- a unary operator on the top value of the data stack -/
  | stackUnary (f : UnaryOperator)
  | read
  | write
  | setChar
  /-- `TYPE` -/
  | typeOf
  /-- `LABEL` -/
  | mark
  | jump
  /-- a jump taken if two operands are equal, or if they are not -/
  | jumpIf (whenEqual : Bool)
  /-- a jump taken if the two top values of the data stack are equal, or if they are not -/
  | stackJumpIf (whenEqual : Bool)
  | exit
  /-- `DPRINT` -/
  | debugPrint
  /-- `BREAK` -/
  | breakpoint
deriving DecidableEq, Inhabited

/-- The operation of an opcode. -/
def Opcode.operation : Opcode → Operation
  | move => .move
  | createFrame => .createFrame
  | pushFrame => .pushFrame
  | popFrame => .popFrame
  | defVar => .declare
  | call => .call
  | ret => .comeBack
  | pushs => .push
  | pops => .pop
  | clears => .clear
  | add => .binary .add
  | sub => .binary .sub
  | mul => .binary .mul
  | idiv => .binary .intDivide
  | div => .binary .divide
  | lt => .binary .less
  | gt => .binary .greater
  | eq => .binary .equals
  | and => .binary .and
  | or => .binary .or
  | not => .unary .not
  | intToChar => .unary .ofCode
  | charToInt => .binary .codeAt
  | intToFloat => .unary .toFloat
  | floatToInt => .unary .toInt
  | read => .read
  | write => .write
  | concat => .binary .concat
  | strLen => .unary .length
  | getChar => .binary .getChar
  | setChar => .setChar
  | type => .typeOf
  | label => .mark
  | jump => .jump
  | jumpIfEq => .jumpIf true
  | jumpIfNeq => .jumpIf false
  | exit => .exit
  | debugPrint => .debugPrint
  | breakpoint => .breakpoint
  | adds => .stackBinary .add
  | subs => .stackBinary .sub
  | muls => .stackBinary .mul
  | idivs => .stackBinary .intDivide
  | lts => .stackBinary .less
  | gts => .stackBinary .greater
  | eqs => .stackBinary .equals
  | ands => .stackBinary .and
  | ors => .stackBinary .or
  | nots => .stackUnary .not
  | intToChars => .stackUnary .ofCode
  | charToInts => .stackBinary .codeAt
  | jumpIfEqs => .stackJumpIf true
  | jumpIfNeqs => .stackJumpIf false

end FrameCode
