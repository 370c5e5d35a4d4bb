import FrameCode.Machine.Operation
import FrameCode.Machine.State

/-!
# Decisions: the checks of an instruction

An instruction is carried out in two parts. First it is **decided**: operands are fetched, every
check is made in its fixed order, and either a cause of failure or one effect comes out. Nothing
changes meanwhile, so an instruction that fails its checks leaves the machine as it was. The one
exception is recorded in the decision itself: a stack operator takes its operands off the data stack
before it looks at them, whether it succeeds or not (`Decision.taken`).

Then the effect is performed (`FrameCode.Machine.Step`).
-/

namespace FrameCode.Machine

/-- What an instruction does once its checks have passed. -/
inductive Effect where
  | nothing
  | store (v : Variable) (x : Cell)
  | declare (v : Variable)
  | createFrame
  | pushFrame
  | popFrame
  | push (x : Value)
  | clear
  | jump (target : Nat)
  | call (target : Nat)
  | comeBack (target : Nat)
  | read (v : Variable) (type : ValueType)
  | write (text : String)
  | diagnose (text : String)
  | exit (code : Nat)
deriving DecidableEq, Inhabited

/-- The number of values that an instruction takes off the data stack, and what follows from its
checks. -/
structure Decision where
  taken : Nat
  verdict : Except Cause Effect

namespace Decision

/-- A decision that leaves the data stack alone. -/
def of (verdict : Except Cause Effect) : Decision :=
  ⟨0, verdict⟩

end Decision

/-! ## Fetching operands -/

/-- The operand at a position, counted from zero. -/
def argument (i : Instruction) (n : Nat) : Except Cause Operand :=
  match i.args[n]? with
  | some a => .ok a
  | none => .error .invalidOperand

/-- The variable at a position. -/
def variableArgument (i : Instruction) (n : Nat) : Except Cause Variable := do
  match ← argument i n with
  | .var v => .ok v
  | _ => .error .invalidOperand

/-- The name of a label at a position. -/
def labelArgument (i : Instruction) (n : Nat) : Except Cause String := do
  match ← argument i n with
  | .label name => .ok name
  | _ => .error .invalidOperand

/-- The type at a position. -/
def typeArgument (i : Instruction) (n : Nat) : Except Cause ValueType := do
  match ← argument i n with
  | .type t => .ok t
  | _ => .error .invalidOperand

/-- The cell behind an operand; a constant counts as assigned. -/
def operandCell (m : Memory) : Operand → Except Cause Cell
  | .const c => .ok (.holding c)
  | .var v => m.cell v
  | _ => .error .invalidOperand

/-- The value of an operand. -/
def operandValue (m : Memory) : Operand → Except Cause Value
  | .const c => .ok c
  | .var v => m.value v
  | _ => .error .invalidOperand

/-- The cell behind the operand at a position. -/
def cellArgument (m : Memory) (i : Instruction) (n : Nat) : Except Cause Cell := do
  operandCell m (← argument i n)

/-- The value of the operand at a position. -/
def valueArgument (m : Memory) (i : Instruction) (n : Nat) : Except Cause Value := do
  operandValue m (← argument i n)

/-- The variable that the first operand names as a destination. Its frame and its declaration are
checked before any other operand is looked at. -/
def destination (m : Memory) (i : Instruction) : Except Cause Variable := do
  let v ← variableArgument i 0
  let _ ← m.cell v
  return v

/-- The place of the label that the first operand names. -/
def target (p : Program) (i : Instruction) : Except Cause Nat := do
  let name ← labelArgument i 0
  match p.labels.resolve? name with
  | some place => .ok place
  | none => .error (.undefinedLabel name)

/-! ## Deciding -/

/-- The exit code that a value stands for. -/
def exitCode : Value → Except Cause Nat
  | .int code =>
    if 0 ≤ code.toInt ∧ code.toInt ≤ 49 then .ok code.toInt.toNat
    else .error (.exitCodeOutOfRange code)
  | _ => .error .typeMismatch

/-- The effect of a jump whose condition has been evaluated. -/
def jumpEffect (place : Nat) (taken : Bool) : Effect :=
  if taken then .jump place else .nothing

/-- What an instruction with a given operation does in a state whose counter has moved past it. -/
def decisionAs (p : Program) (s : State) (i : Instruction) : Operation → Decision
  | .move => .of do
    let v ← destination s.memory i
    return .store v (← cellArgument s.memory i 1)
  | .createFrame => .of (.ok .createFrame)
  | .pushFrame => .of <|
    match s.memory.temporary with
    | some _ => .ok .pushFrame
    | none => .error (.missingFrame .temporary)
  | .popFrame => .of <|
    match s.memory.locals with
    | _ :: _ => .ok .popFrame
    | [] => .error (.missingFrame .topLocal)
  | .declare => .of do
    let v ← variableArgument i 0
    let f ← s.memory.frame v.frame
    if f.contains v.name then .error (.redefinedVariable v) else .ok (.declare v)
  | .call => .of do
    return .call (← target p i)
  | .comeBack => .of <|
    match s.calls with
    | place :: _ => .ok (.comeBack place)
    | [] => .error .callStackEmpty
  | .push => .of do
    return .push (← valueArgument s.memory i 0)
  | .pop =>
    match destination s.memory i, s.stack with
    | .error cause, _ => .of (.error cause)
    | .ok _, [] => .of (.error .dataStackUnderflow)
    | .ok v, x :: _ => ⟨1, .ok (.store v (.holding x))⟩
  | .clear => .of (.ok .clear)
  | .binary f => .of do
    let v ← destination s.memory i
    let a ← valueArgument s.memory i 1
    let b ← valueArgument s.memory i 2
    return .store v (.holding (← f.eval a b))
  | .unary f => .of do
    let v ← destination s.memory i
    let a ← valueArgument s.memory i 1
    return .store v (.holding (← f.eval a))
  | .stackBinary f =>
    match s.stack with
    | right :: left :: _ => ⟨2, (f.eval left right).map .push⟩
    | _ => .of (.error .dataStackUnderflow)
  | .stackUnary f =>
    match s.stack with
    | x :: _ => ⟨1, (f.eval x).map .push⟩
    | [] => .of (.error .dataStackUnderflow)
  | .read => .of do
    let v ← destination s.memory i
    let t ← typeArgument i 1
    if t = .nil then .error .invalidOperand else .ok (.read v t)
  | .write => .of do
    return .write (← valueArgument s.memory i 0).text
  | .setChar => .of do
    let v ← destination s.memory i
    let a ← valueArgument s.memory i 0
    let b ← valueArgument s.memory i 1
    let c ← valueArgument s.memory i 2
    return .store v (.holding (← Operator.setChar a b c))
  | .typeOf => .of do
    let v ← destination s.memory i
    return .store v (.holding (.string (← cellArgument s.memory i 1).typeText))
  | .mark => .of (.ok .nothing)
  | .jump => .of do
    return .jump (← target p i)
  | .jumpIf whenEqual => .of do
    let a ← valueArgument s.memory i 1
    let b ← valueArgument s.memory i 2
    let place ← target p i
    return jumpEffect place ((← Operator.equals a b) == whenEqual)
  | .stackJumpIf whenEqual =>
    match s.stack with
    | right :: left :: _ =>
      ⟨2, do
        let place ← target p i
        return jumpEffect place ((← Operator.equals left right) == whenEqual)⟩
    | _ => .of (.error .dataStackUnderflow)
  | .exit => .of do
    return .exit (← exitCode (← valueArgument s.memory i 0))
  | .debugPrint => .of do
    return .diagnose (← valueArgument s.memory i 0).text
  | .breakpoint => .of (.ok (.diagnose s.dump))

/-- What an instruction does in a state whose counter has moved past it. -/
def decision (p : Program) (s : State) (i : Instruction) : Decision :=
  decisionAs p s i i.opcode.operation

end FrameCode.Machine
