import FrameCode.Machine.Memory
import FrameCode.Proofs.Programs
import Mathlib.Data.List.Forall2
import Mathlib.Data.List.Nodup

/-!
# Renaming variables and labels

A renaming gives new names to variables and to labels, and different names stay different. It is
applied to a program by renaming every operand. The renamed program is accepted exactly if the
program is, and a label has the place that its old name had (`RenamedProgram`).

A frame lists its variables by name, so a renamed frame has the same entries under their new names
but in another arrangement (`Frame.Renamed`). What can be asked of a frame is what a name holds and
how many names there are, and what can be done to it is to assign and to declare. None of these
notices the arrangement.
-/

namespace FrameCode

/-- New names for variables and for labels. -/
structure Renaming where
  onVariables : String → String
  onLabels : String → String
  variables_injective : Function.Injective onVariables
  labels_injective : Function.Injective onLabels

/-! ## Renamed programs -/

/-- The variable under its new name, in the same frame. -/
def Variable.rename (r : Renaming) (v : Variable) : Variable :=
  { v with name := r.onVariables v.name }

/-- The operand with its name renamed, if it has one. -/
def Operand.rename (r : Renaming) : Operand → Operand
  | .var v => .var (v.rename r)
  | .label name => .label (r.onLabels name)
  | .const c => .const c
  | .type t => .type t

/-- The instruction with its operands renamed. -/
def Instruction.rename (r : Renaming) (i : Instruction) : Instruction :=
  { i with args := i.args.map (Operand.rename r) }

/-- The cause with the variable or the label that it names renamed. -/
def Cause.rename (r : Renaming) : Cause → Cause
  | .undefinedLabel name => .undefinedLabel (r.onLabels name)
  | .redefinedVariable v => .redefinedVariable (v.rename r)
  | .undefinedVariable v => .undefinedVariable (v.rename r)
  | .missingValue v => .missingValue (v.rename r)
  | cause => cause

/-- The error at the same place with its cause renamed. -/
def Fault.rename (r : Renaming) (e : Fault) : Fault :=
  { e with cause := e.cause.rename r }

variable {r : Renaming}

theorem label?_rename (r : Renaming) (i : Instruction) :
    (i.rename r).label? = i.label?.map r.onLabels := by
  obtain ⟨opcode, args, order, index⟩ := i
  unfold Instruction.rename Instruction.label?
  by_cases hop : opcode = .label
  · subst hop
    rcases args with _ | ⟨a, rest⟩
    · rfl
    · cases a <;> rfl
  · -- The first pattern asks for a label instruction, so only the second one is left.
    simp [hop]

/-- A program has the instructions of another one under new names, and its labels have the places
that they had. -/
structure RenamedProgram (r : Renaming) (p p' : Program) : Prop where
  instructions : ∀ n : Nat, p'.instructions[n]? = p.instructions[n]?.map (Instruction.rename r)
  labels : ∀ name, p'.labels.resolve? (r.onLabels name) = p.labels.resolve? name

/-- Names that differ are defined by renamed labels that differ, so a program is accepted under any
names. -/
theorem ofInstructions_rename_isOk_iff (r : Renaming) (is : List Instruction) :
    (∃ p', Program.ofInstructions (is.map (Instruction.rename r)) = .ok p') ↔
      ∃ p, Program.ofInstructions is = .ok p := by
  have hnames : (is.map (Instruction.rename r)).filterMap Instruction.label? =
      (is.filterMap Instruction.label?).map r.onLabels := by
    rw [List.filterMap_map, List.map_filterMap]
    congr 1
    funext i
    exact label?_rename r i
  rw [Program.ofInstructions_isOk_iff, Program.ofInstructions_isOk_iff, hnames,
    List.nodup_map_iff r.labels_injective]

theorem renamedProgram_of_ofInstructions {is : List Instruction} {p p' : Program}
    (hp : Program.ofInstructions is = .ok p)
    (hp' : Program.ofInstructions (is.map (Instruction.rename r)) = .ok p') :
    RenamedProgram r p p' where
  instructions := by
    intro n
    rw [Program.getElem?_ofInstructions hp, Program.getElem?_ofInstructions hp', List.getElem?_map,
      Option.map_map, Option.map_map]
    rfl
  labels := by
    intro name
    apply Option.ext
    intro place
    rw [Program.resolve?_ofInstructions hp, Program.resolve?_ofInstructions hp']
    constructor
    · rintro ⟨i', hi', hlabel⟩
      rw [List.getElem?_map] at hi'
      obtain ⟨i, hi, rfl⟩ := Option.map_eq_some_iff.mp hi'
      rw [label?_rename] at hlabel
      obtain ⟨name', hname', heq⟩ := Option.map_eq_some_iff.mp hlabel
      rw [r.labels_injective heq] at hname'
      exact ⟨i, hi, hname'⟩
    · rintro ⟨i, hi, hlabel⟩
      refine ⟨i.rename r, ?_, ?_⟩
      · rw [List.getElem?_map, hi, Option.map_some]
      · rw [label?_rename, hlabel, Option.map_some]

/-! ## Renamed frames -/

namespace Frame

variable {f f' : Frame} {name : String} {x : Cell}

/-- No name stands twice in a frame, so what it holds is what it is listed with. -/
theorem get?_eq_some_iff : f.get? name = some x ↔ (name, x) ∈ f.entries := by
  unfold get?
  rw [List.lookup_eq_some_iff]
  constructor
  · rintro ⟨before, after, hentries, -⟩
    simp [hentries]
  · intro hmem
    obtain ⟨before, after, hentries⟩ := List.append_of_mem hmem
    refine ⟨before, after, hentries, ?_⟩
    intro e he
    have hascending := f.ascending
    rw [hentries, List.pairwise_append] at hascending
    have hlt : e.1 < name := hascending.2.2 e he (name, x) (List.mem_cons_self ..)
    have hne : name ≠ e.1 := by
      rintro rfl
      exact String.lt_irrefl _ hlt
    simpa using hne

/-- An entry under its new name. -/
def renameEntry (r : Renaming) (e : String × Cell) : String × Cell :=
  (r.onVariables e.1, e.2)

/-- The second frame has the entries of the first one under their new names. -/
def Renamed (r : Renaming) (f f' : Frame) : Prop :=
  f'.entries.Perm (f.entries.map (renameEntry r))

theorem renamed_empty (r : Renaming) : Renamed r empty empty :=
  .nil

theorem Renamed.get? (h : Renamed r f f') (name : String) :
    f'.get? (r.onVariables name) = f.get? name := by
  apply Option.ext
  intro x
  rw [get?_eq_some_iff, get?_eq_some_iff, h.mem_iff, List.mem_map]
  constructor
  · rintro ⟨⟨k, y⟩, hmem, heq⟩
    obtain ⟨hname, rfl⟩ := Prod.mk.inj heq
    rw [← r.variables_injective hname]
    exact hmem
  · intro hmem
    exact ⟨(name, x), hmem, rfl⟩

theorem Renamed.contains (h : Renamed r f f') (name : String) :
    f'.contains (r.onVariables name) = f.contains name := by
  unfold Frame.contains
  rw [h.get?]

theorem Renamed.size (h : Renamed r f f') : f'.size = f.size := by
  unfold Frame.size
  rw [h.length_eq, List.length_map]

theorem Renamed.set (h : Renamed r f f') (name : String) (x : Cell) :
    Renamed r (f.set name x) (f'.set (r.onVariables name) x) := by
  have hentry : ∀ e : String × Cell,
      (if (renameEntry r e).1 == r.onVariables name then ((renameEntry r e).1, x)
        else renameEntry r e) = renameEntry r (if e.1 == name then (e.1, x) else e) := by
    intro e
    by_cases he : e.1 = name
    · simp [renameEntry, he]
    · have hne : r.onVariables e.1 ≠ r.onVariables name := fun h => he (r.variables_injective h)
      simp [renameEntry, he, hne]
  unfold Renamed Frame.set replace
  refine (h.map _).trans ?_
  rw [List.map_map, List.map_map]
  exact .of_eq (List.map_congr_left fun e _ => hentry e)

theorem ne_of_not_contains (h : ¬f.contains name = true) : ∀ e ∈ f.entries, e.1 ≠ name := by
  rintro ⟨k, x⟩ hmem rfl
  apply h
  unfold Frame.contains
  rw [get?_eq_some_iff.mpr hmem, Option.isSome_some]

/-- A new name goes somewhere among the others. -/
theorem perm_insertNew {l : List (String × Cell)} (hnew : ∀ e ∈ l, e.1 ≠ name) :
    (insertNew name x l).Perm ((name, x) :: l) := by
  induction l with
  | nil => exact .refl _
  | cons e rest ih =>
    obtain ⟨k, y⟩ := e
    rw [insertNew]
    by_cases hlt : name < k
    · rw [if_pos hlt]
    · have hgt : k < name := by
        apply Classical.byContradiction
        intro hnot
        have heq := String.le_antisymm (String.not_lt.mp hlt) (String.not_lt.mp hnot)
        exact hnew (k, y) (List.mem_cons_self ..) heq
      rw [if_neg hlt, if_pos hgt]
      have hrest := ih fun e he => hnew e (List.mem_cons_of_mem _ he)
      exact (hrest.cons (k, y)).trans (.swap ..)

theorem Renamed.declare (h : Renamed r f f') (name : String) :
    Renamed r ((f.declare? name).getD f) ((f'.declare? (r.onVariables name)).getD f') := by
  unfold declare?
  rw [h.contains]
  by_cases htaken : f.contains name = true
  · rw [if_pos htaken, if_pos htaken]
    exact h
  · rw [if_neg htaken, if_neg htaken]
    have htaken' : ¬f'.contains (r.onVariables name) = true := by
      rw [h.contains]
      exact htaken
    -- Which place a new name goes to does not matter, so take it to the front on both sides.
    apply (perm_insertNew (ne_of_not_contains htaken')).trans
    apply (h.cons (r.onVariables name, .unset)).trans
    exact ((perm_insertNew (ne_of_not_contains htaken)).map (renameEntry r)).symm

end Frame

/-! ## Renamed memories -/

namespace Memory

variable {m m' : Memory}

/-- Two memories with the same frames up to the names in them. -/
structure Renamed (r : Renaming) (m m' : Memory) : Prop where
  globals : Frame.Renamed r m.globals m'.globals
  locals : List.Forall₂ (Frame.Renamed r) m.locals m'.locals
  temporary : Option.Rel (Frame.Renamed r) m.temporary m'.temporary

theorem renamed_empty (r : Renaming) : Renamed r empty empty :=
  ⟨Frame.renamed_empty r, .nil, .none⟩

theorem Renamed.frame? (h : Renamed r m m') (kind : FrameName) :
    Option.Rel (Frame.Renamed r) (m.frame? kind) (m'.frame? kind) := by
  cases kind with
  | global => exact .some h.globals
  | topLocal =>
    have hlocals := h.locals
    unfold Memory.frame?
    generalize m.locals = fs at hlocals ⊢
    generalize m'.locals = fs' at hlocals ⊢
    cases hlocals with
    | nil => exact .none
    | cons hf _ => exact .some hf
  | temporary => exact h.temporary

theorem Renamed.variablesInReach (h : Renamed r m m') :
    m'.variablesInReach = m.variablesInReach := by
  have hsize : ∀ kind, ((m'.frame? kind).map Frame.size).getD 0 =
      ((m.frame? kind).map Frame.size).getD 0 := by
    intro kind
    have hframe := h.frame? kind
    generalize m.frame? kind = o at hframe ⊢
    generalize m'.frame? kind = o' at hframe ⊢
    cases hframe with
    | none => rfl
    | some hf => exact hf.size
  unfold Memory.variablesInReach
  rw [h.globals.size]
  exact congrArg₂ _ (congrArg₂ _ rfl (hsize .topLocal)) (hsize .temporary)

/-- Frames changed alike stay the same up to names. -/
theorem Renamed.mapFrame (h : Renamed r m m') (kind : FrameName) {change change' : Frame → Frame}
    (hchange : ∀ f f', Frame.Renamed r f f' → Frame.Renamed r (change f) (change' f')) :
    Renamed r (m.mapFrame kind change) (m'.mapFrame kind change') := by
  cases kind with
  | global => exact { h with globals := hchange _ _ h.globals }
  | topLocal =>
    refine { h with locals := ?_ }
    have hlocals := h.locals
    unfold Memory.mapFrame
    dsimp only
    generalize m.locals = fs at hlocals ⊢
    generalize m'.locals = fs' at hlocals ⊢
    cases hlocals with
    | nil => exact .nil
    | cons hf hrest => exact .cons (hchange _ _ hf) hrest
  | temporary =>
    refine { h with temporary := ?_ }
    have htemporary := h.temporary
    unfold Memory.mapFrame
    dsimp only
    generalize m.temporary = o at htemporary ⊢
    generalize m'.temporary = o' at htemporary ⊢
    cases htemporary with
    | none => exact .none
    | some hf => exact .some (hchange _ _ hf)

theorem Renamed.store (h : Renamed r m m') (v : Variable) (x : Cell) :
    Renamed r (m.store v x) (m'.store (v.rename r) x) :=
  h.mapFrame v.frame fun _ _ hf => hf.set v.name x

theorem Renamed.declare (h : Renamed r m m') (v : Variable) :
    Renamed r (m.declare v) (m'.declare (v.rename r)) :=
  h.mapFrame v.frame fun _ _ hf => hf.declare v.name

theorem Renamed.createFrame (h : Renamed r m m') : Renamed r m.createFrame m'.createFrame :=
  { h with temporary := .some (Frame.renamed_empty r) }

theorem Renamed.pushFrame (h : Renamed r m m') : Renamed r m.pushFrame m'.pushFrame := by
  obtain ⟨globals, locals, temporary⟩ := m
  obtain ⟨globals', locals', temporary'⟩ := m'
  obtain ⟨hglobals, hlocals, htemporary⟩ := h
  cases htemporary with
  | none => exact ⟨hglobals, hlocals, .none⟩
  | some hf => exact ⟨hglobals, .cons hf hlocals, .none⟩

theorem Renamed.popFrame (h : Renamed r m m') : Renamed r m.popFrame m'.popFrame := by
  obtain ⟨globals, locals, temporary⟩ := m
  obtain ⟨globals', locals', temporary'⟩ := m'
  obtain ⟨hglobals, hlocals, htemporary⟩ := h
  cases hlocals with
  | nil => exact ⟨hglobals, .nil, htemporary⟩
  | cons hf hrest => exact ⟨hglobals, hrest, .some hf⟩

end Memory

end FrameCode
