import FrameCode.Literal.Float
import FrameCode.Literal.Integer
import FrameCode.Machine.Decision

/-!
# Steps of the machine

A step fetches the instruction at the counter, moves the counter on, decides the instruction and
performs its effect. Only reading and writing can fail while an effect is performed. The profile
records an instruction once it is completed, so one that fails is never counted.
-/

namespace FrameCode.Machine

/-! ## Reading values -/

/-- The value of a type that a line of input stands for. Nil stands for the missing line, the empty
line and a line that is no literal of the type. -/
def readValue (t : ValueType) : Option String → Value
  | none => .nil
  | some line =>
    if line.isEmpty then .nil
    else
      match t with
      | .int => ((Literal.int? line.toList).map Value.int).getD .nil
      | .float => ((Literal.float? line.toList).map Value.float).getD .nil
      | .bool => .bool (Text.sameLetters (Text.trim line.toList) ['t', 'r', 'u', 'e'])
      | .string | .nil => .string line

/-! ## Performing effects -/

/-- The result of an instruction: the run goes on, ends with an exit code or ends with an error. -/
inductive Outcome where
  | next (s : State)
  | exit (code : Nat) (s : State)
  | fault (cause : Cause) (s : State)

namespace State

/-- The state with another memory, and its variables observed. -/
def observing (s : State) (m : Memory) : State :=
  { s with memory := m, profile := s.profile.observe m.variablesInReach }

/-- A state in which an effect takes place. -/
def perform (s : State) : Effect → Outcome
  | .nothing => .next s
  | .store v x => .next { s with memory := s.memory.store v x }
  | .declare v => .next (s.observing (s.memory.declare v))
  | .createFrame => .next { s with memory := s.memory.createFrame }
  | .pushFrame => .next { s with memory := s.memory.pushFrame }
  | .popFrame => .next (s.observing s.memory.popFrame)
  | .push x => .next { s with stack := x :: s.stack }
  | .clear => .next { s with stack := [] }
  | .jump place => .next { s with counter := place }
  | .call place => .next { s with counter := place, calls := s.counter :: s.calls }
  | .comeBack place => .next { s with counter := place, calls := s.calls.tail }
  | .read v t =>
    match s.input.readLine with
    | (.ok line, input) =>
      .next { s with input := input, memory := s.memory.store v (.holding (readValue t line)) }
    | (.error reason, input) => .fault (.channel reason) { s with input := input }
  | .write text =>
    match s.output.write text with
    | (.ok _, output) => .next { s with output := output }
    | (.error reason, output) => .fault (.channel reason) { s with output := output }
  | .diagnose text =>
    match s.diagnostics.write text with
    | (.ok _, diagnostics) => .next { s with diagnostics := diagnostics }
    | (.error reason, diagnostics) => .fault (.channel reason) { s with diagnostics := diagnostics }
  | .exit code => .exit code s

/-- The state with one more completed instruction in its profile. -/
def completed (s : State) (i : Instruction) : State :=
  { s with profile := s.profile.record i }

/-- The state in which an instruction is carried out: the counter has moved past it. -/
def advanced (s : State) : State :=
  { s with counter := s.counter + 1 }

/-- The state without the values that an instruction takes off the data stack. -/
def taking (s : State) (n : Nat) : State :=
  { s with stack := s.stack.drop n }

/-- An instruction carried out in a state whose counter has moved past it. -/
def carryOut (p : Program) (s : State) (i : Instruction) : Outcome :=
  let d := decision p s i
  match d.verdict with
  | .error cause => .fault cause (s.taking d.taken)
  | .ok effect =>
    match (s.taking d.taken).perform effect with
    | .next s => .next (s.completed i)
    | .exit code s => .exit code (s.completed i)
    | .fault cause s => .fault cause s

end State

/-- One step of a machine; `none` if the counter has left the program. -/
def step? (p : Program) (s : State) : Option Outcome :=
  match p.instructions[s.counter]? with
  | some i => some (s.advanced.carryOut p i)
  | none => none

end FrameCode.Machine
