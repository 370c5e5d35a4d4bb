import FrameCode.Machine.Run

/-!
# Handlers: instructions as they act

`Decision` and `Step` tell first what an instruction comes to and then change the state at once. A
**handler** does the same work piecemeal: it fetches an operand, looks at it, changes a part of the
state and goes on, and whatever it has changed by the time it fails stays changed. Where it fails it
blames the place before the counter, as the counter stands at that moment.

Nothing here relies on the order in which a decision makes its checks, nor on a store being made to
a variable that was found before. That handlers and steps agree in every state is a theorem
(`Handler.finish_loop`).
-/

namespace FrameCode.Machine

/-- What follows an instruction that is completed. -/
inductive Flow where
  | next
  | exit (code : Nat)
deriving DecidableEq, Inhabited

/-- A part of an instruction: it finds the state that the parts before it have left, and gives a
result or fails. -/
abbrev Handler (α : Type) : Type :=
  EStateM Fault State α

namespace Handler

variable {α : Type}

/-! ## Parts of instructions -/

/-- Fails at the place of the instruction at work. -/
def fail (cause : Cause) : Handler α := fun s =>
  .error ⟨cause, s.place⟩ s

/-- Looks at the state without changing it. -/
def check (look : State → Except Cause α) : Handler α := do
  match look (← get) with
  | .ok a => return a
  | .error cause => fail cause

/-- Stores to a variable, which has to be there. -/
def store (v : Variable) (x : Cell) : Handler Unit := do
  let m ← check fun s => s.memory.assign v x
  modify fun s => { s with memory := m }

def push (x : Value) : Handler Unit :=
  modify fun s => { s with stack := x :: s.stack }

/-- Takes the top value off the data stack. -/
def pop : Handler Value := do
  match (← get).stack with
  | [] => fail .dataStackUnderflow
  | x :: rest =>
    modify fun s => { s with stack := rest }
    return x

/-- Takes the two top values off the data stack, the right one being on the top; takes none if there
are fewer. -/
def popPair : Handler (Value × Value) := do
  if (← get).stack.length < 2 then fail .dataStackUnderflow
  else
    let right ← pop
    let left ← pop
    return (left, right)

/-- Goes on at a place. -/
def goTo (place : Nat) : Handler Unit :=
  modify fun s => { s with counter := place }

/-- Observes the variables in reach. -/
def observe : Handler Unit :=
  modify fun s => { s with profile := s.profile.observe s.memory.variablesInReach }

/-- The next line of the input. What reading has used up is gone, also if it fails. -/
def readLine : Handler (Option String) := do
  let (line, input) := (← get).input.readLine
  modify fun s => { s with input := input }
  match line with
  | .ok line => return line
  | .error reason => fail (.channel reason)

/-- Writes to the output. What fits is written, also if not all of it does. -/
def write (text : String) : Handler Unit := do
  let (done, output) := (← get).output.write text
  modify fun s => { s with output := output }
  match done with
  | .ok _ => return ()
  | .error reason => fail (.channel reason)

/-- Writes to the diagnostics. -/
def diagnose (text : String) : Handler Unit := do
  let (done, diagnostics) := (← get).diagnostics.write text
  modify fun s => { s with diagnostics := diagnostics }
  match done with
  | .ok _ => return ()
  | .error reason => fail (.channel reason)

/-! ## Frames and calls -/

/-- `MOVE` copies a cell, so an unset source leaves the destination unset. -/
def move (i : Instruction) : Handler Unit := do
  let v ← check fun s => destination s.memory i
  let x ← check fun s => cellArgument s.memory i 1
  store v x

/-- `CREATEFRAME` puts an empty frame in the place of the temporary one. -/
def createFrame : Handler Unit :=
  modify fun s => { s with memory.temporary := some .empty }

/-- `PUSHFRAME` takes the temporary frame away and then puts it on the stack. -/
def pushFrame : Handler Unit := do
  match (← get).memory.temporary with
  | none => fail (.missingFrame .temporary)
  | some f =>
    modify fun s => { s with memory.temporary := none }
    modify fun s => { s with memory.locals := f :: s.memory.locals }

/-- `POPFRAME` takes the top frame off the stack and then makes it the temporary one. -/
def popFrame : Handler Unit := do
  match (← get).memory.locals with
  | [] => fail (.missingFrame .topLocal)
  | f :: rest =>
    modify fun s => { s with memory.locals := rest }
    modify fun s => { s with memory.temporary := some f }
    observe

/-- `DEFVAR` declares a variable in a frame that does not have it. -/
def declare (i : Instruction) : Handler Unit := do
  let v ← check fun _ => variableArgument i 0
  let f ← check fun s => s.memory.frame v.frame
  match f.declare? v.name with
  | none => fail (.redefinedVariable v)
  | some g =>
    modify fun s => { s with memory := s.memory.mapFrame v.frame fun _ => g }
    observe

/-- `CALL` notes where the counter is and jumps. -/
def call (p : Program) (i : Instruction) : Handler Unit := do
  let place ← check fun _ => target p i
  modify fun s => { s with calls := s.counter :: s.calls }
  goTo place

/-- `RETURN` goes back to the last place that was noted. -/
def comeBack : Handler Unit := do
  match (← get).calls with
  | [] => fail .callStackEmpty
  | place :: rest =>
    modify fun s => { s with calls := rest }
    goTo place

/-! ## Operators -/

/-- `PUSHS`. -/
def pushArgument (i : Instruction) : Handler Unit := do
  push (← check fun s => valueArgument s.memory i 0)

/-- `POPS` looks for its destination before it takes a value. -/
def popInto (i : Instruction) : Handler Unit := do
  let v ← check fun s => destination s.memory i
  let x ← pop
  store v (.holding x)

/-- `CLEARS`. -/
def clear : Handler Unit :=
  modify fun s => { s with stack := [] }

/-- A binary operator on two operands. -/
def binary (f : BinaryOperator) (i : Instruction) : Handler Unit := do
  let v ← check fun s => destination s.memory i
  let a ← check fun s => valueArgument s.memory i 1
  let b ← check fun s => valueArgument s.memory i 2
  store v (.holding (← check fun _ => f.eval a b))

/-- A unary operator on an operand. -/
def unary (f : UnaryOperator) (i : Instruction) : Handler Unit := do
  let v ← check fun s => destination s.memory i
  let a ← check fun s => valueArgument s.memory i 1
  store v (.holding (← check fun _ => f.eval a))

/-- A binary operator on the data stack. -/
def stackBinary (f : BinaryOperator) : Handler Unit := do
  let (left, right) ← popPair
  push (← check fun _ => f.eval left right)

/-- A unary operator on the data stack. -/
def stackUnary (f : UnaryOperator) : Handler Unit := do
  let a ← pop
  push (← check fun _ => f.eval a)

/-- `SETCHAR` reads its destination as well. -/
def setChar (i : Instruction) : Handler Unit := do
  let v ← check fun s => destination s.memory i
  let a ← check fun s => valueArgument s.memory i 0
  let b ← check fun s => valueArgument s.memory i 1
  let c ← check fun s => valueArgument s.memory i 2
  store v (.holding (← check fun _ => Operator.setChar a b c))

/-- `TYPE` gives the empty text for an unset operand. -/
def typeOf (i : Instruction) : Handler Unit := do
  let v ← check fun s => destination s.memory i
  let x ← check fun s => cellArgument s.memory i 1
  store v (.holding (.string x.typeText))

/-! ## Input and output -/

/-- `READ` looks for its destination and its type before it reads. -/
def read (i : Instruction) : Handler Unit := do
  let v ← check fun s => destination s.memory i
  let t ← check fun _ => typeArgument i 1
  if t = .nil then fail .invalidOperand
  else
    let line ← readLine
    store v (.holding (readValue t line))

/-- `WRITE`. -/
def writeArgument (i : Instruction) : Handler Unit := do
  write (← check fun s => valueArgument s.memory i 0).text

/-- `DPRINT`. -/
def debugPrint (i : Instruction) : Handler Unit := do
  diagnose (← check fun s => valueArgument s.memory i 0).text

/-- `BREAK`. -/
def breakpoint : Handler Unit := do
  diagnose (← get).dump

/-! ## Jumps -/

/-- `JUMP`. -/
def jump (p : Program) (i : Instruction) : Handler Unit := do
  goTo (← check fun _ => target p i)

/-- Goes on at a place if a comparison comes out as wanted. -/
def jumpWhen (place : Nat) (whenEqual : Bool) (a b : Value) : Handler Unit := do
  let equal ← check fun _ => Operator.equals a b
  if equal == whenEqual then goTo place else return ()

/-- `JUMPIFEQ` and `JUMPIFNEQ` read their operands, resolve the label and then compare, so a missing
label fails even if the jump is not taken. -/
def jumpIf (whenEqual : Bool) (p : Program) (i : Instruction) : Handler Unit := do
  let a ← check fun s => valueArgument s.memory i 1
  let b ← check fun s => valueArgument s.memory i 2
  let place ← check fun _ => target p i
  jumpWhen place whenEqual a b

/-- `JUMPIFEQS` and `JUMPIFNEQS`. -/
def stackJumpIf (whenEqual : Bool) (p : Program) (i : Instruction) : Handler Unit := do
  let (left, right) ← popPair
  let place ← check fun _ => target p i
  jumpWhen place whenEqual left right

/-- `EXIT` ends the run with a code. -/
def exit (i : Instruction) : Handler Flow := do
  let x ← check fun s => valueArgument s.memory i 0
  return .exit (← check fun _ => exitCode x)

/-! ## Instructions and runs -/

/-- A handler after which the run goes on. -/
def goingOn (h : Handler Unit) : Handler Flow := do
  h
  return .next

/-- The handler of an operation. -/
def handleAs (p : Program) (i : Instruction) : Operation → Handler Flow
  | .move => goingOn (move i)
  | .createFrame => goingOn createFrame
  | .pushFrame => goingOn pushFrame
  | .popFrame => goingOn popFrame
  | .declare => goingOn (declare i)
  | .call => goingOn (call p i)
  | .comeBack => goingOn comeBack
  | .push => goingOn (pushArgument i)
  | .pop => goingOn (popInto i)
  | .clear => goingOn clear
  | .binary f => goingOn (binary f i)
  | .unary f => goingOn (unary f i)
  | .stackBinary f => goingOn (stackBinary f)
  | .stackUnary f => goingOn (stackUnary f)
  | .read => goingOn (read i)
  | .write => goingOn (writeArgument i)
  | .setChar => goingOn (setChar i)
  | .typeOf => goingOn (typeOf i)
  | .mark => goingOn (return ())
  | .jump => goingOn (jump p i)
  | .jumpIf whenEqual => goingOn (jumpIf whenEqual p i)
  | .stackJumpIf whenEqual => goingOn (stackJumpIf whenEqual p i)
  | .exit => exit i
  | .debugPrint => goingOn (debugPrint i)
  | .breakpoint => goingOn breakpoint

/-- One round: the counter moves on, the instruction is handled, and only then it is recorded. -/
def round (p : Program) (i : Instruction) : Handler Flow := do
  modify State.advanced
  let flow ← handleAs p i i.opcode.operation
  modify fun s => s.completed i
  return flow

/-- Rounds until the counter leaves the program or the run is ended, if the given number of rounds
is enough. -/
def loop (p : Program) : Nat → Handler (Option Nat)
  | 0 => return none
  | fuel + 1 => do
    match p.instructions[(← get).counter]? with
    | none => return some 0
    | some i =>
      match ← round p i with
      | .exit code => return some code
      | .next => loop p fuel

end Handler

end FrameCode.Machine
