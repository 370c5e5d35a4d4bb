import FrameCode.Document.Builder
import FrameCode.Language.Program
import FrameCode.Source.Argument

/-!
# Loading: from a document to a program

A program is written as a `program` element that holds an `instruction` element for each
instruction, which in turn holds its operands as elements `arg1`, `arg2` and so on. The order of the
elements in the document does not matter: instructions are sorted by the order they declare, and
operands stand where their names say.

Loading reports the first error in document order; duplicate orders and labels are looked for once
every instruction is valid on its own.
-/

namespace FrameCode.Source

open FrameCode.Document FrameCode.Text

/-! ## The program element -/

/-- The name of the language, which a document has to give. -/
def language : String := "IPPcode23"

/-- The attributes that a program element may have. -/
def rootAttributes : List String := ["language", "name", "description"]

/-- The checks on the program element: its attributes, its name and its language, in this order. -/
def validateRoot (root : Element) : Except SourceError Unit :=
  match root.attributes.find? fun a => !rootAttributes.contains a.name.localName with
  | some a => .error (.unexpectedRootAttribute a.name.localName)
  | none =>
    if root.tag ≠ "program" then .error (.unexpectedRoot root.tag)
    else
      let found := (root.attribute? "language").getD ""
      if sameLetters found.toList language.toList then .ok () else .error (.wrongLanguage found)

/-- The value of an attribute that has to be there. -/
def required (e : Element) (name : String) : Except SourceError String :=
  match e.attribute? name with
  | some value => .ok value
  | none => .error (.missingAttribute e.tag name)

/-! ## Orders -/

/-- The number that a text without surrounding blanks gives as an order: an optional sign and
decimal digits, with a positive value below `2 ^ 32`. -/
def orderOf? (cs : List Char) : Option Nat :=
  let (negative, digits) := takeSign cs
  if negative || digits.isEmpty then none
  else
    (digits? 10 digits).bind fun ds =>
      let n := valueOf 10 ds
      if 0 < n ∧ n < UInt32.size then some n else none

/-- The order that an attribute value gives. -/
def order (text : String) : Except SourceError Nat :=
  match orderOf? (trim text.toList) with
  | some n => .ok n
  | none => .error (.invalidOrder text)

/-! ## Operands -/

/-- The name of the element that holds the operand at a position, counted from zero. -/
def argumentTag (position : Nat) : String :=
  "arg" ++ (position + 1).repr

/-- The position that the name of an element gives, among those of an opcode. -/
def position? (arity : Nat) (tag : String) : Option Nat :=
  (List.range arity).find? fun n => argumentTag n == tag

/-- The operand that an element holds. -/
def argument (order : Nat) (e : Element) : Except SourceError Operand := do
  let kind ← required e "type"
  Argument.operand order kind (trimmed e.leadingText)

/-- The operands found so far, by position, after one more element. A position is filled once. -/
def fill (order arity : Nat) (found : List (Option Operand)) (e : Element) :
    Except SourceError (List (Option Operand)) :=
  match position? arity e.tag with
  | none => .error (.unexpectedArgument order e.tag)
  | some n =>
    if (found[n]?.bind id).isSome then .error (.unexpectedArgument order e.tag)
    else do
      let a ← argument order e
      return found.set n (some a)

/-- The operands of an instruction element in the order of their positions. -/
def arguments (order : Nat) (opcode : Opcode) (e : Element) : Except SourceError (List Operand) :=
  let arity := opcode.arity
  let elements := e.children
  if elements.length ≠ arity then
    .error (.argumentCount order opcode arity elements.length)
  else do
    let found ← elements.foldlM (fill order arity) (List.replicate arity none)
    return found.filterMap id

/-- The position, counted from one, of the first operand that does not fit its kind. -/
def misfit? (args : List Operand) (kinds : List OperandClass) : Option Nat :=
  ((args.zip kinds).findIdx? fun (a, kind) => !a.fits kind).map (· + 1)

/-! ## Instructions -/

/-- The opcode of an instruction element. -/
def opcode (order : Nat) (e : Element) : Except SourceError Opcode := do
  let token ← required e "opcode"
  match Opcode.ofMnemonic? (trimmed token) with
  | some op => .ok op
  | none => .error (.unknownOpcode order token)

/-- The checks on the operands of an opcode: each fits its kind, and nil is no type to read. -/
def validateArguments (order : Nat) (op : Opcode) (args : List Operand) : Except SourceError Unit :=
  match misfit? args op.signature with
  | some position => .error (.operandKind order op position)
  | none =>
    if op = .read ∧ args[1]? = some (.type .nil) then
      .error (.invalidReadType order ValueType.nil.text)
    else .ok ()

/-- The instruction that an element holds. -/
def instruction (e : Element) : Except SourceError Instruction :=
  if e.tag ≠ "instruction" then .error (.unexpectedElement e.tag)
  else do
    let n ← order (← required e "order")
    let op ← opcode n e
    let args ← arguments n op e
    validateArguments n op args
    return { opcode := op, args := args, order := n }

/-! ## Programs -/

/-- The first order that two neighbours in a list share. -/
def repeatedOrder? : List Instruction → Option Nat
  | a :: b :: rest => if a.order = b.order then some a.order else repeatedOrder? (b :: rest)
  | _ => none

/-- Instructions sorted by their orders, which have to differ. -/
def sorted (is : List Instruction) : Except SourceError (List Instruction) :=
  let ordered := is.mergeSort fun a b => decide (a.order ≤ b.order)
  match repeatedOrder? ordered with
  | some n => .error (.duplicateOrder n)
  | none => .ok ordered

/-- The instructions of a program element, sorted by their orders. -/
def instructions (root : Element) : Except SourceError (List Instruction) := do
  validateRoot root
  let is ← root.children.mapM instruction
  sorted is

/-- The program that an element holds. -/
def program (root : Element) : Except SourceError Program := do
  Program.ofInstructions (← instructions root)

/-- The program that a document holds. -/
def load (text : String) : Except SourceError Program :=
  match Element.ofText? text with
  | some root => program root
  | none => .error .malformed

end FrameCode.Source
