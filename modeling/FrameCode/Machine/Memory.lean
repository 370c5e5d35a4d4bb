import FrameCode.Machine.Frame
import FrameCode.Machine.Fault

/-!
# Memory: the frames of a machine

A machine has a global frame from the start, a stack of local frames and at most one temporary
frame. Variables of the local kind live in the top frame of the stack. Frames below the top are out
of reach until those above them are popped.
-/

namespace FrameCode

/-- The frames of a machine; the first of the local frames is the top one. -/
structure Memory where
  globals : Frame
  locals : List Frame
  temporary : Option Frame
deriving DecidableEq, Inhabited

namespace Memory

/-- The memory before the first instruction. -/
def empty : Memory := ⟨.empty, [], none⟩

/-! ## Looking up -/

/-- The frame of a kind, if there is one. -/
def frame? (m : Memory) : FrameName → Option Frame
  | .global => some m.globals
  | .topLocal => m.locals.head?
  | .temporary => m.temporary

/-- The frame of a kind. -/
def frame (m : Memory) (kind : FrameName) : Except Cause Frame :=
  match m.frame? kind with
  | some f => .ok f
  | none => .error (.missingFrame kind)

/-- The cell of a variable: its frame has to exist, and the variable has to be declared there. -/
def cell (m : Memory) (v : Variable) : Except Cause Cell := do
  let f ← m.frame v.frame
  match f.get? v.name with
  | some x => .ok x
  | none => .error (.undefinedVariable v)

/-- The value of a variable, which needs to have been assigned. -/
def value (m : Memory) (v : Variable) : Except Cause Value := do
  match ← m.cell v with
  | .holding x => .ok x
  | .unset => .error (.missingValue v)

/-- The number of variables in reach. -/
def variablesInReach (m : Memory) : Nat :=
  m.globals.size + (m.locals.head?.map Frame.size).getD 0 + (m.temporary.map Frame.size).getD 0

/-! ## Changing -/

/-- The memory with the frame of a kind changed, if there is one. -/
def mapFrame (m : Memory) (kind : FrameName) (change : Frame → Frame) : Memory :=
  match kind with
  | .global => { m with globals := change m.globals }
  | .topLocal => { m with locals := m.locals.modifyHead change }
  | .temporary => { m with temporary := m.temporary.map change }

/-- The memory with another cell for a variable that is declared. -/
def store (m : Memory) (v : Variable) (x : Cell) : Memory :=
  m.mapFrame v.frame (·.set v.name x)

/-- A store that looks for the variable itself: its frame has to exist, and it has to be declared
there. -/
def assign (m : Memory) (v : Variable) (x : Cell) : Except Cause Memory := do
  let _ ← m.cell v
  return m.store v x

/-- A store to a variable that was found does not fail. -/
theorem assign_of_cell {m : Memory} {v : Variable} {c : Cell} (h : m.cell v = .ok c) (x : Cell) :
    m.assign v x = .ok (m.store v x) := by
  unfold assign
  rw [h]
  rfl

/-- The memory with one more variable in a frame that exists and does not have it. -/
def declare (m : Memory) (v : Variable) : Memory :=
  m.mapFrame v.frame fun f => (f.declare? v.name).getD f

/-- The memory with an empty temporary frame. -/
def createFrame (m : Memory) : Memory :=
  { m with temporary := some .empty }

/-- The temporary frame becomes the top local one. -/
def pushFrame (m : Memory) : Memory :=
  match m.temporary with
  | some f => { m with locals := f :: m.locals, temporary := none }
  | none => m

/-- The top local frame becomes the temporary one. -/
def popFrame (m : Memory) : Memory :=
  match m.locals with
  | f :: rest => { m with locals := rest, temporary := some f }
  | [] => m

end Memory

end FrameCode
