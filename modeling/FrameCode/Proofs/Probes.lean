import FrameCode.Proofs.Programs

/-!
# Programs with probes

A probe is an instruction that only serves to look at a run: a breakpoint, or a debugging print of a
constant. A list of lines is a program with the probes marked, so that it stands for two programs at
once: the one with its probes (`probed`) and the one without them (`plain`).

Probes move the code behind them. `rank` is the way back: it takes a place of the program with
probes to the place that the same code has without them, and a place at a probe to the place of the
code behind it. Labels resolve alike in both programs up to `rank` (`Built.resolve?_plain`), and
probes define no labels, so that one of the programs exists if the other does (`exists_built`).
-/

namespace FrameCode

/-- A line of a program: code, or a probe. The source may have given the code another order among
the probes than it has without them. -/
inductive Line where
  | code (i : Instruction) (order : Nat)
  | breakpoint (order : Nat)
  | print (c : Value) (order : Nat)
deriving DecidableEq

namespace Line

/-- The instruction of a line in the program with probes. -/
def instruction : Line → Instruction
  | code i order => { i with order := order }
  | breakpoint order => { opcode := .breakpoint, args := [], order := order }
  | print c order => { opcode := .debugPrint, args := [.const c], order := order }

/-- The instruction of a line in the program without probes, if it has one there. -/
def original? : Line → Option Instruction
  | code i _ => some i
  | breakpoint _ | print _ _ => none

variable {l : Line}

/-- Code is the same with probes and without them but for its order. -/
theorem of_original? {i : Instruction} (h : l.original? = some i) :
    l.instruction.opcode = i.opcode ∧ l.instruction.args = i.args := by
  cases l with
  | code j order =>
    cases h
    exact ⟨rfl, rfl⟩
  | breakpoint | print => cases h

theorem label?_of_original? {i : Instruction} (h : l.original? = some i) :
    l.instruction.label? = i.label? := by
  obtain ⟨hop, hargs⟩ := of_original? h
  unfold Instruction.label?
  rw [hop, hargs]

/-- A probe defines no label. -/
theorem label?_of_probe (h : l.original? = none) : l.instruction.label? = none := by
  cases l with
  | code => cases h
  | breakpoint | print => rfl

end Line

/-- The program with the probes. -/
def probed (ls : List Line) : List Instruction :=
  ls.map Line.instruction

/-- The program without the probes. -/
def plain (ls : List Line) : List Instruction :=
  ls.filterMap Line.original?

/-- The number of lines of code before a place, which is the place of the code there without the
probes. -/
def rank (ls : List Line) (n : Nat) : Nat :=
  (plain (ls.take n)).length

/-- A place without the probes and a place with them, at the same line of code. -/
def SameLine (ls : List Line) (n n' : Nat) : Prop :=
  ∃ l i, ls[n']? = some l ∧ l.original? = some i ∧ rank ls n' = n

variable {ls : List Line} {l : Line} {i : Instruction} {n : Nat}

/-! ## Places -/

theorem getElem?_probed (h : ls[n]? = some l) : (probed ls)[n]? = some l.instruction := by
  unfold probed
  rw [List.getElem?_map, h]
  rfl

theorem plain_take_succ (h : ls[n]? = some l) :
    plain (ls.take (n + 1)) = plain (ls.take n) ++ l.original?.toList := by
  unfold plain
  rw [List.take_add_one, h, List.filterMap_append]
  cases hl : l.original? with
  | none => simp [hl]
  | some i => simp [hl]

/-- Code is counted. -/
theorem rank_succ_code (h : ls[n]? = some l) (hl : l.original? = some i) :
    rank ls (n + 1) = rank ls n + 1 := by
  unfold rank
  rw [plain_take_succ h, hl, List.length_append]
  rfl

/-- A probe is passed over. -/
theorem rank_succ_probe (h : ls[n]? = some l) (hl : l.original? = none) :
    rank ls (n + 1) = rank ls n := by
  unfold rank
  rw [plain_take_succ h, hl, List.length_append]
  rfl

/-- The code at a place is, without the probes, at the rank of the place. -/
theorem getElem?_plain_rank (h : ls[n]? = some l) (hl : l.original? = some i) :
    (plain ls)[rank ls n]? = some i := by
  have hsplit : plain ls = plain (ls.take (n + 1)) ++ plain (ls.drop (n + 1)) := by
    unfold plain
    rw [← List.filterMap_append, List.take_append_drop]
  -- The code in front of the line is `rank ls n` long, and the code of the line comes next.
  rw [hsplit, plain_take_succ h, hl, List.append_assoc]
  unfold rank
  rw [List.getElem?_append_right (Nat.le_refl _), Nat.sub_self]
  rfl

/-- Behind the last line no code is left. -/
theorem getElem?_plain_rank_of_none (h : ls[n]? = none) : (plain ls)[rank ls n]? = none := by
  have hle : ls.length ≤ n := List.getElem?_eq_none_iff.mp h
  unfold rank
  rw [List.take_of_length_le hle]
  exact List.getElem?_eq_none (Nat.le_refl _)

theorem rank_cons (l : Line) (ls : List Line) (n : Nat) :
    rank (l :: ls) (n + 1) = l.original?.toList.length + rank ls n := by
  unfold rank plain
  rw [List.take_succ_cons]
  cases hl : l.original? with
  | none => simp [hl]
  | some i => simp [hl, Nat.add_comm]

/-- Every place without the probes has a line of code. -/
theorem exists_line_of_plain (h : (plain ls)[n]? = some i) :
    ∃ m l, ls[m]? = some l ∧ l.original? = some i ∧ rank ls m = n := by
  induction ls generalizing n with
  | nil => cases h
  | cons l ls ih =>
    unfold plain at h
    cases hl : l.original? with
    | none =>
      rw [List.filterMap_cons_none hl] at h
      obtain ⟨m, l', hm, hl', hrank⟩ := ih h
      refine ⟨m + 1, l', hm, hl', ?_⟩
      rw [rank_cons, hl, hrank]
      exact Nat.zero_add n
    | some j =>
      rw [List.filterMap_cons_some hl] at h
      cases n with
      | zero =>
        rw [List.getElem?_cons_zero] at h
        exact ⟨0, l, rfl, hl.trans h, rfl⟩
      | succ n =>
        rw [List.getElem?_cons_succ] at h
        obtain ⟨m, l', hm, hl', hrank⟩ := ih h
        refine ⟨m + 1, l', hm, hl', ?_⟩
        rw [rank_cons, hl, hrank]
        exact Nat.add_comm 1 n

/-! ## The two programs -/

/-- The two programs define the same names, in the same order. -/
theorem filterMap_label?_plain (ls : List Line) :
    (plain ls).filterMap Instruction.label? = (probed ls).filterMap Instruction.label? := by
  have hline : (fun l : Line => l.original?.bind Instruction.label?)
      = Instruction.label? ∘ Line.instruction := by
    funext l
    rcases hl : l.original? with _ | i
    · exact (Line.label?_of_probe hl).symm
    · exact (Line.label?_of_original? hl).symm
  unfold plain probed
  rw [List.filterMap_filterMap, List.filterMap_map, hline]

/-- Lines stand for two programs, one without the probes and one with them. -/
structure Built (ls : List Line) (p p' : Program) : Prop where
  plain : Program.ofInstructions (plain ls) = .ok p
  probed : Program.ofInstructions (probed ls) = .ok p'

/-- Probes do not keep a program from being built. -/
theorem exists_built {p : Program} (h : Program.ofInstructions (plain ls) = .ok p) :
    ∃ p', Built ls p p' := by
  have hnodup := (Program.ofInstructions_isOk_iff (plain ls)).mp ⟨p, h⟩
  rw [filterMap_label?_plain] at hnodup
  obtain ⟨p', h'⟩ := (Program.ofInstructions_isOk_iff (probed ls)).mpr hnodup
  exact ⟨p', h, h'⟩

namespace Built

variable {p p' : Program}

theorem getElem?_plain (h : Built ls p p') (hl : ls[n]? = some l) (hi : l.original? = some i) :
    p.instructions[rank ls n]? = some { i with index := rank ls n } := by
  rw [Program.getElem?_ofInstructions h.plain, getElem?_plain_rank hl hi]
  rfl

theorem getElem?_probed (h : Built ls p p') (hl : ls[n]? = some l) :
    p'.instructions[n]? = some { l.instruction with index := n } := by
  rw [Program.getElem?_ofInstructions h.probed, FrameCode.getElem?_probed hl]
  rfl

/-- Behind the last line there is nothing in either program. -/
theorem getElem?_end (h : Built ls p p') (hl : ls[n]? = none) :
    p.instructions[rank ls n]? = none ∧ p'.instructions[n]? = none := by
  constructor
  · rw [Program.getElem?_ofInstructions h.plain, getElem?_plain_rank_of_none hl]
    rfl
  · rw [Program.getElem?_ofInstructions h.probed, FrameCode.probed, List.getElem?_map, hl]
    rfl

/-- The end of the program with the probes is at the end of the other one. -/
theorem rank_size (h : Built ls p p') : rank ls p'.size = p.size := by
  have hlen : (FrameCode.probed ls).length = ls.length := List.length_map ..
  rw [Program.size_ofInstructions h.probed, Program.size_ofInstructions h.plain, hlen]
  unfold rank
  rw [List.take_length]

/-- **Labels.** A label of the program without probes is at the rank of its place among them. -/
theorem resolve?_plain (h : Built ls p p') (name : String) :
    p.labels.resolve? name = (p'.labels.resolve? name).map (rank ls) := by
  obtain ⟨hp, hp'⟩ := h
  rcases hplace : p'.labels.resolve? name with _ | place
  · -- A label without probes would have a line of code, and so a place among the probes.
    rw [Option.map_none, Option.eq_none_iff_forall_ne_some]
    intro place hres
    obtain ⟨i, hi, hlabel⟩ := (Program.resolve?_ofInstructions hp).mp hres
    obtain ⟨m, l, hm, hl, -⟩ := exists_line_of_plain hi
    have hres' : p'.labels.resolve? name = some m := by
      rw [Program.resolve?_ofInstructions hp']
      refine ⟨l.instruction, FrameCode.getElem?_probed hm, ?_⟩
      rw [Line.label?_of_original? hl, hlabel]
    rw [hplace] at hres'
    cases hres'
  · obtain ⟨j, hj, hlabel⟩ := (Program.resolve?_ofInstructions hp').mp hplace
    unfold FrameCode.probed at hj
    rw [List.getElem?_map, Option.map_eq_some_iff] at hj
    obtain ⟨l, hl, rfl⟩ := hj
    rcases ho : l.original? with _ | i
    · -- Probes define no labels.
      rw [Line.label?_of_probe ho] at hlabel
      cases hlabel
    · rw [Option.map_some, Program.resolve?_ofInstructions hp]
      exact ⟨i, getElem?_plain_rank hl ho, (Line.label?_of_original? ho).symm.trans hlabel⟩

end Built

end FrameCode
