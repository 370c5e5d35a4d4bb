import FrameCode.Language.SourceError
import FrameCode.Language.Operand

/-!
# Programs and their labels

A program is a sequence of instructions, each of which knows its place, and a table that takes the
name of a label to the place of the instruction that defines it. A name may be defined once only;
the first instruction that defines a name again is reported.
-/

namespace FrameCode

/-- The names of labels with the places where they are defined. -/
structure Labels where
  entries : List (String × Nat)
deriving DecidableEq, Inhabited

namespace Labels

def empty : Labels := ⟨[]⟩

/-- The place of a label. -/
def resolve? (t : Labels) (name : String) : Option Nat :=
  t.entries.lookup name

def size (t : Labels) : Nat :=
  t.entries.length

/-- The table with one more label, unless its name is taken. -/
def define (t : Labels) (name : String) (place : Nat) : Except SourceError Labels :=
  match t.resolve? name with
  | some _ => .error (.duplicateLabel name)
  | none => .ok ⟨(name, place) :: t.entries⟩

/-- The table after one instruction: a label instruction adds its name, and any other adds
nothing. -/
def enter (t : Labels) (i : Instruction) : Except SourceError Labels :=
  match i.label? with
  | some name => t.define name i.index
  | none => .ok t

/-- The labels that a list of instructions defines. -/
def ofInstructions (is : List Instruction) : Except SourceError Labels :=
  is.foldlM enter empty

end Labels

/-- A program: its instructions in the order of execution, and its labels. -/
structure Program where
  instructions : Array Instruction
  labels : Labels
deriving DecidableEq, Inhabited

namespace Program

/-- The instructions of a list, each with its place in the list. -/
def number (is : List Instruction) : List Instruction :=
  is.mapIdx fun place i => { i with index := place }

/-- The program with the instructions of a list. -/
def ofInstructions (is : List Instruction) : Except SourceError Program := do
  let labels ← Labels.ofInstructions (number is)
  return ⟨(number is).toArray, labels⟩

def size (p : Program) : Nat :=
  p.instructions.size

end Program

end FrameCode
