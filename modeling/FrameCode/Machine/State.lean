import FrameCode.Language.Program
import FrameCode.Machine.Channel
import FrameCode.Machine.Memory
import FrameCode.Machine.Profile

/-!
# States of the machine

A state is all that a run carries from one instruction to the next. Stacks are lists with the top
first. The counter is the place of the next instruction; while an instruction is carried out it has
moved on already, so the instruction at work is the one before it (`State.place`).
-/

namespace FrameCode.Machine

/-- The state of a machine between two instructions. -/
structure State where
  counter : Nat
  memory : Memory
  /-- the places to come back to, the last call first -/
  calls : List Nat
  /-- the data stack, its top first -/
  stack : List Value
  profile : Profile
  input : Input
  output : Output
  diagnostics : Output
deriving DecidableEq, Inhabited

namespace State

/-- The state in which a run starts. -/
def initial (input : Input) (output diagnostics : Output) : State where
  counter := 0
  memory := .empty
  calls := []
  stack := []
  profile := .empty
  input := input
  output := output
  diagnostics := diagnostics

/-- The place of the instruction at work. -/
def place (s : State) : Nat :=
  s.counter - 1

/-! ## The dump -/

/-- Texts in brackets with commas between them. -/
def bracketed (items : List String) : String :=
  "[" ++ Text.joinWith ", " items ++ "]"

/-- The variables of a frame in braces, in ascending order of their names. -/
def frameText : Option Frame → String
  | none => "<none>"
  | some f => "\x7b" ++ Text.joinWith ", " (f.entries.map fun e => e.1 ++ "=" ++ e.2.text) ++ "\x7d"

/-- The description of a state that a breakpoint writes, one line for each part. -/
def dump (s : State) : String :=
  "position: " ++ s.place.repr ++ "\n"
    ++ "executed: " ++ s.profile.executed.repr ++ "\n"
    ++ "call stack: " ++ bracketed (s.calls.reverse.map Nat.repr) ++ "\n"
    ++ "frame stack depth: " ++ s.memory.locals.length.repr ++ "\n"
    ++ "data stack: " ++ bracketed (s.stack.reverse.map Value.typed) ++ "\n"
    ++ "GF: " ++ frameText (some s.memory.globals) ++ "\n"
    ++ "LF: " ++ frameText s.memory.locals.head? ++ "\n"
    ++ "TF: " ++ frameText s.memory.temporary ++ "\n"

end State

end FrameCode.Machine
