import FrameCode.Language.SourceError
import FrameCode.Language.Operand
import FrameCode.Literal.Escape
import FrameCode.Literal.Float
import FrameCode.Literal.Integer

/-!
# Arguments: operands as they are written in documents

A document gives an operand by the name of its kind and a text. The kinds are those of constants,
and `var`, `label` and `type`. Names of variables and labels are identifiers: ASCII letters, digits
and a few signs, with no digit at the start.
-/

namespace FrameCode.Argument

open FrameCode.Text

/-! ## Names -/

/-- ASCII letters and the signs that identifiers may hold. -/
def isIdentifierStart (c : Char) : Bool :=
  c.isAlpha || ['_', '-', '$', '&', '%', '*', '!', '?'].contains c

/-- What an identifier may hold after its start. -/
def isIdentifierChar (c : Char) : Bool :=
  isIdentifierStart c || isDigit c

def isIdentifier : List Char → Bool
  | [] => false
  | c :: cs => isIdentifierStart c && cs.all isIdentifierChar

/-- The variable that a text `frame@name` names. -/
def variableOf? (text : List Char) : Option Variable :=
  match cutAt (· == '@') text with
  | (mark, some name) =>
    (FrameName.ofMark? (String.ofList mark)).bind fun frame =>
      if isIdentifier name then some ⟨frame, String.ofList name⟩ else none
  | (_, none) => none

/-- The truth value that a text names. -/
def boolOf? (text : String) : Option Bool :=
  if text = "true" then some true else if text = "false" then some false else none

/-! ## Operands -/

/-- The kinds of operands that documents know. -/
inductive Kind where
  | var
  | label
  | type
  | int
  | float
  | bool
  | nil
  | string
deriving DecidableEq, Inhabited

namespace Kind

def text : Kind → String
  | var => "var"
  | label => "label"
  | type => "type"
  | int => "int"
  | float => "float"
  | bool => "bool"
  | nil => "nil"
  | string => "string"

def all : List Kind := [var, label, type, int, float, bool, nil, string]

/-- The kind with a name, in exactly this spelling. -/
def ofText? (s : String) : Option Kind :=
  all.find? (·.text == s)

end Kind

/-- The operand of a kind that a text without surrounding blanks denotes. -/
def operand? (kind : Kind) (text : String) : Option Operand :=
  match kind with
  | .var => (variableOf? text.toList).map .var
  | .label => if isIdentifier text.toList then some (.label text) else none
  | .type => (ValueType.ofText? text).map .type
  | .int => (Literal.int? text.toList).map fun n => .const (.int n)
  | .float => (Literal.float? text.toList).map fun x => .const (.float x)
  | .bool => (boolOf? text).map fun b => .const (.bool b)
  | .nil => if text = "nil" then some (.const .nil) else none
  | .string => some (.const (.string (String.ofList (Literal.unescape text.toList))))

/-- The operand with the name of a kind and a text without surrounding blanks. -/
def operand (order : Nat) (kind text : String) : Except SourceError Operand :=
  match Kind.ofText? kind with
  | none => .error (.unknownOperandType order kind)
  | some k =>
    match operand? k text with
    | some a => .ok a
    | none => .error (.invalidLiteral order k.text text)

end FrameCode.Argument
