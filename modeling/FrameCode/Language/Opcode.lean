import FrameCode.Text

/-!
# Opcodes

The instruction set: each opcode has a mnemonic and a signature, the kinds of operands it takes in
order. Most operators come in two forms, a three-address form that names its operands and a stack
form, with an `S` at the end of its mnemonic, that takes them from the data stack.
-/

namespace FrameCode

/-- What an opcode expects as an operand: a variable, a variable or a constant, a label or a
type. -/
inductive OperandClass where
  | var
  | symbol
  | label
  | type
deriving DecidableEq, Inhabited

/-- The opcodes of the language. -/
inductive Opcode where
  /-- copy a cell into a variable -/
  | move
  /-- make a new temporary frame -/
  | createFrame
  /-- make the temporary frame the top local frame -/
  | pushFrame
  /-- make the top local frame the temporary frame -/
  | popFrame
  /-- declare a variable -/
  | defVar
  /-- jump to a label and remember where to come back -/
  | call
  /-- come back from the last call -/
  | ret
  /-- push a value -/
  | pushs
  /-- pop a value into a variable -/
  | pops
  /-- empty the data stack -/
  | clears
  | add
  | sub
  | mul
  /-- integer division, rounded down -/
  | idiv
  /-- floating-point division -/
  | div
  | lt
  | gt
  | eq
  | and
  | or
  | not
  /-- the text of one character with a given code -/
  | intToChar
  /-- the code of a character of a text -/
  | charToInt
  | intToFloat
  | floatToInt
  /-- read a line of input as a value of a type -/
  | read
  | write
  | concat
  | strLen
  | getChar
  /-- replace one character of a text -/
  | setChar
  /-- the name of the type of a cell -/
  | type
  /-- mark a place to jump to -/
  | label
  | jump
  /-- jump if two values are equal -/
  | jumpIfEq
  /-- jump if two values are not equal -/
  | jumpIfNeq
  /-- end the run with an exit code -/
  | exit
  /-- write a value to the diagnostics -/
  | debugPrint
  /-- write the state of the machine to the diagnostics -/
  | breakpoint
  | adds
  | subs
  | muls
  | idivs
  | lts
  | gts
  | eqs
  | ands
  | ors
  | nots
  | intToChars
  | charToInts
  | jumpIfEqs
  | jumpIfNeqs
deriving DecidableEq, Inhabited

namespace Opcode

/-- Every opcode once, in the order of the language's reference. -/
def all : List Opcode :=
  [move, createFrame, pushFrame, popFrame, defVar, call, ret, pushs, pops, clears, add, sub,
   mul, idiv, div, lt, gt, eq, and, or, not, intToChar, charToInt, intToFloat, floatToInt,
   read, write, concat, strLen, getChar, setChar, type, label, jump, jumpIfEq, jumpIfNeq,
   exit, debugPrint, breakpoint, adds, subs, muls, idivs, lts, gts, eqs, ands, ors, nots,
   intToChars, charToInts, jumpIfEqs, jumpIfNeqs]

/-- The name of an opcode in programs and reports. -/
def mnemonic : Opcode → String
  | move => "MOVE"
  | createFrame => "CREATEFRAME"
  | pushFrame => "PUSHFRAME"
  | popFrame => "POPFRAME"
  | defVar => "DEFVAR"
  | call => "CALL"
  | ret => "RETURN"
  | pushs => "PUSHS"
  | pops => "POPS"
  | clears => "CLEARS"
  | add => "ADD"
  | sub => "SUB"
  | mul => "MUL"
  | idiv => "IDIV"
  | div => "DIV"
  | lt => "LT"
  | gt => "GT"
  | eq => "EQ"
  | and => "AND"
  | or => "OR"
  | not => "NOT"
  | intToChar => "INT2CHAR"
  | charToInt => "STRI2INT"
  | intToFloat => "INT2FLOAT"
  | floatToInt => "FLOAT2INT"
  | read => "READ"
  | write => "WRITE"
  | concat => "CONCAT"
  | strLen => "STRLEN"
  | getChar => "GETCHAR"
  | setChar => "SETCHAR"
  | type => "TYPE"
  | label => "LABEL"
  | jump => "JUMP"
  | jumpIfEq => "JUMPIFEQ"
  | jumpIfNeq => "JUMPIFNEQ"
  | exit => "EXIT"
  | debugPrint => "DPRINT"
  | breakpoint => "BREAK"
  | adds => "ADDS"
  | subs => "SUBS"
  | muls => "MULS"
  | idivs => "IDIVS"
  | lts => "LTS"
  | gts => "GTS"
  | eqs => "EQS"
  | ands => "ANDS"
  | ors => "ORS"
  | nots => "NOTS"
  | intToChars => "INT2CHARS"
  | charToInts => "STRI2INTS"
  | jumpIfEqs => "JUMPIFEQS"
  | jumpIfNeqs => "JUMPIFNEQS"

/-- The opcode with a mnemonic, in letters of any case. -/
def ofMnemonic? (s : String) : Option Opcode :=
  all.find? fun op => Text.sameLetters op.mnemonic.toList s.toList

/-- The kinds of operands that an opcode takes, in order. -/
def signature : Opcode → List OperandClass
  | move | not | intToChar | intToFloat | floatToInt | strLen | type =>
    [.var, .symbol]
  | defVar | pops =>
    [.var]
  | call | label | jump | jumpIfEqs | jumpIfNeqs =>
    [.label]
  | pushs | write | exit | debugPrint =>
    [.symbol]
  | add | sub | mul | idiv | div | lt | gt | eq | and | or | charToInt | concat | getChar
  | setChar =>
    [.var, .symbol, .symbol]
  | read =>
    [.var, .type]
  | jumpIfEq | jumpIfNeq =>
    [.label, .symbol, .symbol]
  | _ => []

/-- The number of operands of an opcode. -/
def arity (op : Opcode) : Nat :=
  op.signature.length

/-- Whether an opcode counts as an executed instruction. Marks and diagnostics do not. -/
def counts : Opcode → Bool
  | label | debugPrint | breakpoint => false
  | _ => true

end Opcode

end FrameCode
