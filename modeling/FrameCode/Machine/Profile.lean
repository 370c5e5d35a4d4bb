import FrameCode.Language.Operand

/-!
# The profile of a run and its report

The profile of a run counts completed instructions, by place and by opcode, and remembers the
largest number of variables that were in reach at once. Marks and diagnostics are counted by opcode
and place but not as executed instructions.

A report is a list of fields, written one after the other without anything between them.
-/

namespace FrameCode

/-- How often the instruction at a place was completed, and the order its source gives it. -/
structure Hit where
  place : Nat
  order : Nat
  count : Nat
deriving DecidableEq, Inhabited

/-- Counts of one run: `hits` has one entry for each place completed, and `opcodes` one for each
opcode. -/
structure Profile where
  executed : Nat
  hits : List Hit
  opcodes : List (Opcode × Nat)
  peakVariables : Nat
deriving DecidableEq, Inhabited

namespace Profile

/-- The profile before the first instruction. -/
def empty : Profile := ⟨0, [], [], 0⟩

/-- One more completion at a place. The order is the one of the first completion there. -/
def recordHit (place order : Nat) : List Hit → List Hit
  | [] => [⟨place, order, 1⟩]
  | h :: rest =>
    if h.place = place then { h with count := h.count + 1 } :: rest
    else h :: recordHit place order rest

/-- One more completion of an opcode. -/
def recordOpcode (op : Opcode) : List (Opcode × Nat) → List (Opcode × Nat)
  | [] => [(op, 1)]
  | (o, n) :: rest =>
    if o = op then (o, n + 1) :: rest
    else (o, n) :: recordOpcode op rest

/-- The profile after one more completed instruction. -/
def record (s : Profile) (i : Instruction) : Profile :=
  { s with
    executed := if i.opcode.counts then s.executed + 1 else s.executed
    hits := recordHit i.index i.order s.hits
    opcodes := recordOpcode i.opcode s.opcodes }

/-- The profile after seeing a number of variables in reach. -/
def observe (s : Profile) (reach : Nat) : Profile :=
  { s with peakVariables := max s.peakVariables reach }

/-- How often an opcode was completed. -/
def count (s : Profile) (op : Opcode) : Nat :=
  (s.opcodes.lookup op).getD 0

/-- The largest number of a list, and zero for the empty one. -/
def largest (ns : List Nat) : Nat :=
  ns.foldl max 0

/-- The largest number of completions at one place. -/
def hottest (s : Profile) : Nat :=
  largest (s.hits.map (·.count))

/-- The least order among the places completed most often, and zero if nothing was completed. -/
def hot (s : Profile) : Nat :=
  (((s.hits.filter (·.count == s.hottest)).map (·.order)).min?).getD 0

/-- The largest number of completions of one opcode. -/
def highest (s : Profile) : Nat :=
  largest (Opcode.all.map s.count)

/-- Every opcode with the highest count, in descending order of the mnemonics. -/
def frequent (s : Profile) : List Opcode :=
  (Opcode.all.filter fun op => s.count op == s.highest).mergeSort
    fun a b => decide (b.mnemonic ≤ a.mnemonic)

end Profile

/-- A field of a report. -/
inductive ReportField where
  /-- the number of executed instructions -/
  | executed
  /-- the order of the instruction completed most often -/
  | hot
  /-- the peak number of variables -/
  | peak
  /-- the mnemonics of the most frequent opcodes -/
  | frequent
  /-- a given text -/
  | print (text : String)
  /-- a line break -/
  | lineBreak
deriving DecidableEq, Inhabited

/-- The text of one field of a report. -/
def ReportField.render (s : Profile) : ReportField → String
  | executed => s.executed.repr
  | hot => s.hot.repr
  | peak => s.peakVariables.repr
  | frequent => Text.joinWith "," (s.frequent.map Opcode.mnemonic)
  | print text => text
  | lineBreak => "\n"

/-- The report with the given fields. -/
def Profile.render (s : Profile) (fields : List ReportField) : String :=
  fields.foldl (fun report f => report ++ f.render s) ""

end FrameCode
