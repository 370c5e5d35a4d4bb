import FrameCode.Language.Opcode

/-!
# Errors of a source document

A document can fail to be a program in the ways listed here. A duplicate label is an error of
meaning, a document that is not well-formed XML an error of form, and the rest are errors of
structure; the exit code tells these three classes apart.
-/

namespace FrameCode

/-- Why a document is not a program. `order` is the number that the document gives the instruction
at fault. -/
inductive SourceError where
  /-- not a well-formed XML document -/
  | malformed
  | unexpectedRoot (tag : String)
  | unexpectedRootAttribute (name : String)
  | wrongLanguage (found : String)
  | unexpectedElement (tag : String)
  | missingAttribute (element name : String)
  | invalidOrder (text : String)
  | duplicateOrder (order : Nat)
  | unknownOpcode (order : Nat) (token : String)
  | argumentCount (order : Nat) (opcode : Opcode) (expected found : Nat)
  | unexpectedArgument (order : Nat) (tag : String)
  | unknownOperandType (order : Nat) (type : String)
  | invalidLiteral (order : Nat) (type text : String)
  /-- an operand of a kind that the opcode does not take at this position, counted from one -/
  | operandKind (order : Nat) (opcode : Opcode) (position : Nat)
  | invalidReadType (order : Nat) (type : String)
  | duplicateLabel (label : String)
deriving DecidableEq, Inhabited

namespace SourceError

/-- The exit code of a program that cannot be loaded. -/
def exitCode : SourceError → Nat
  | malformed => 31
  | duplicateLabel _ => 52
  | _ => 32

/-- The message that is shown for an error. -/
def message : SourceError → String
  | malformed => "malformed XML"
  | unexpectedRoot tag => "unexpected root element '" ++ tag ++ "'"
  | unexpectedRootAttribute name => "unexpected attribute '" ++ name ++ "' on program element"
  | wrongLanguage found => "unsupported language '" ++ found ++ "'"
  | unexpectedElement tag => "unexpected element '" ++ tag ++ "'"
  | missingAttribute element name =>
    element ++ " element is missing the '" ++ name ++ "' attribute"
  | invalidOrder text => "invalid instruction order '" ++ text ++ "'"
  | duplicateOrder order => "duplicate instruction order " ++ order.repr
  | unknownOpcode order token => located order ++ "unknown opcode '" ++ token ++ "'"
  | argumentCount order opcode expected found =>
    located order ++ opcode.mnemonic ++ " expects " ++ expected.repr ++ " argument(s), found "
      ++ found.repr
  | unexpectedArgument order tag => located order ++ "unexpected argument element '" ++ tag ++ "'"
  | unknownOperandType order type => located order ++ "unknown operand type '" ++ type ++ "'"
  | invalidLiteral order type text =>
    located order ++ "invalid " ++ type ++ " literal '" ++ text ++ "'"
  | operandKind order opcode position =>
    located order ++ opcode.mnemonic ++ " argument " ++ position.repr ++ " has the wrong kind"
  | invalidReadType order type => located order ++ "cannot READ type '" ++ type ++ "'"
  | duplicateLabel label => "duplicate label '" ++ label ++ "'"
where
  located (order : Nat) : String := "instruction " ++ order.repr ++ ": "

end SourceError

end FrameCode
