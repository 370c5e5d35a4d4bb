import FrameCode.Language.Opcode
import FrameCode.Language.Value

/-!
# Operands and instructions

An operand is a variable, a constant, the name of a label or the name of a type. An instruction is
an opcode with a list of operands; whether these fit the opcode's signature is not part of the type,
because programs may also be put together by hand.
-/

namespace FrameCode

/-- The frame in which a variable lives: the global one, the top local one or the temporary one. -/
inductive FrameName where
  | global
  | topLocal
  | temporary
deriving DecidableEq, Inhabited

namespace FrameName

/-- The two letters in front of a variable's name. -/
def mark : FrameName → String
  | .global => "GF"
  | .topLocal => "LF"
  | .temporary => "TF"

def all : List FrameName := [.global, .topLocal, .temporary]

/-- The frame with a mark, in exactly this spelling. -/
def ofMark? (s : String) : Option FrameName :=
  all.find? (·.mark == s)

end FrameName

/-- A variable: a name in a frame. -/
structure Variable where
  frame : FrameName
  name : String
deriving DecidableEq, Inhabited

/-- The notation `frame@name`. -/
def Variable.text (v : Variable) : String :=
  v.frame.mark ++ "@" ++ v.name

/-- An operand of an instruction. -/
inductive Operand where
  | var (v : Variable)
  | const (c : Value)
  | label (name : String)
  | type (t : ValueType)
deriving DecidableEq, Inhabited

namespace Operand

/-- Whether an operand may stand where a kind is expected. -/
def fits : Operand → OperandClass → Bool
  | var _, .var => true
  | var _, .symbol => true
  | const _, .symbol => true
  | label _, .label => true
  | type _, .type => true
  | _, _ => false

def text : Operand → String
  | var v => v.text
  | const c => c.typed
  | label name => "label@" ++ name
  | type t => "type@" ++ t.text

end Operand

/-- An instruction. `order` is the number that its source gives it, which only reports use; `index`
is its place in the program. -/
structure Instruction where
  opcode : Opcode
  args : List Operand
  order : Nat := 0
  index : Nat := 0
deriving DecidableEq, Inhabited

namespace Instruction

/-- The mnemonic and the operands, with spaces between them. -/
def text (i : Instruction) : String :=
  i.args.foldl (fun s a => s ++ " " ++ a.text) i.opcode.mnemonic

/-- The name that an instruction defines as a label, if it is a label instruction. -/
def label? (i : Instruction) : Option String :=
  match i.opcode, i.args with
  | .label, .label name :: _ => some name
  | _, _ => none

end Instruction

end FrameCode
