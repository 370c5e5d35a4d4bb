import FrameCode.Proofs.Frames
import FrameCode.Proofs.Signature
import Mathlib.Data.List.Forall2

/-!
# Which check fails first

An instruction with several defects fails for one of them. Which one is fixed: the checks of an
instruction form a list, and the cause of failure is that of the first check that fails
(`step?_first_failure`).

A `Check` is judged by itself, in the state before the instruction, whether or not the checks before
it pass (`Check.failure?`). The list follows from the operation and the operands (`checksAs`): first
the destination, then the sources from left to right, then the data stack or the input, then what
the operator asks for; jumps resolve their label before they compare. The machine never sees this
list. It fetches operands in a sequence of its own, and `Guards` says of each part of this sequence
which checks it amounts to; parts in a row amount to their checks in a row (`Guards.bind`).

Nothing changes between the check of a destination and the store to it, so a store that makes the
same check again always passes it (`Memory.assign_of_cell`, `assign_of_verdict`).
-/

namespace FrameCode

/-- The operations that assign their first operand. -/
def Operation.assigns : Operation → Bool
  | .move | .pop | .read | .typeOf | .setChar | .unary _ | .binary _ => true
  | _ => false

/-- The jumps that depend on a comparison. -/
def Operation.compares : Operation → Bool
  | .jumpIf _ | .stackJumpIf _ => true
  | _ => false

/-! ## Looking at variables and operands -/

namespace Memory

/-- The cell of a variable, if it is declared in a frame that exists. -/
def find? (m : Memory) (v : Variable) : Option Cell :=
  (m.frame? v.frame).bind (·.get? v.name)

/-- The value of an operand, if it has one. -/
def value? (m : Memory) : Operand → Option Value
  | .const c => some c
  | .var v => (m.find? v).bind Cell.value?
  | _ => none

theorem find?_of_cell {m : Memory} {v : Variable} {c : Cell} (h : m.cell v = .ok c) :
    m.find? v = some c := by
  unfold cell frame at h
  unfold find?
  rcases hf : m.frame? v.frame with _ | f
  · rw [hf] at h
    cases h
  · rw [hf] at h
    rcases hc : f.get? v.name with _ | x
    · simp [hc] at h
    · simpa [hc] using h

end Memory

/-- The operands of a well-formed instruction, position by position. -/
theorem Instruction.WellFormed.forall₂ {i : Instruction} (h : i.WellFormed) :
    List.Forall₂ (fun a kind => a.fits kind = true) i.args i.opcode.operation.signature := by
  rw [← i.opcode.signature_eq, List.forall₂_iff_get]
  refine ⟨h.count, fun n hn hn' => ?_⟩
  exact h.fits n _ _ (List.getElem?_eq_getElem hn) (List.getElem?_eq_getElem hn')

namespace Machine

open FrameCode.Checks

variable {p : Program} {s t : State} {i : Instruction} {v : Variable} {a b c : Operand}
  {x y z : Value} {name : String} {n : Nat} {e : Effect} {o : Operation}

/-! ## Checks -/

/-- One thing that an instruction asks for. -/
inductive Check where
  /-- there is a frame of a kind -/
  | frame (kind : FrameName)
  /-- a variable is declared -/
  | declared (v : Variable)
  /-- a variable has been assigned -/
  | assigned (v : Variable)
  /-- the data stack holds enough values -/
  | depth (n : Nat)
  /-- the input does not fail -/
  | input
  /-- a label is defined -/
  | label (name : String)
  /-- an operator takes its operands -/
  | unary (f : UnaryOperator) (a : Operand)
  | binary (f : BinaryOperator) (a b : Operand)
  | setChar (a b c : Operand)
  /-- the two top values of the data stack can be compared -/
  | comparable

/-- The error that a computation ends with, if it does. -/
def errorOf {ε α : Type} : Except ε α → Option ε
  | .error cause => some cause
  | .ok _ => none

/-- The cause that a check gives in a state, if it fails there. -/
def Check.failure? (p : Program) (s : State) : Check → Option Cause
  | .frame kind => if (s.memory.frame? kind).isNone then some (.missingFrame kind) else none
  | .declared v => if (s.memory.find? v).isNone then some (.undefinedVariable v) else none
  | .assigned v => if (s.memory.value? (.var v)).isNone then some (.missingValue v) else none
  | .depth n => if s.stack.length < n then some .dataStackUnderflow else none
  | .input => (errorOf s.input.readLine.1).map .channel
  | .label name => if (p.labels.resolve? name).isNone then some (.undefinedLabel name) else none
  | .unary f a => do
    let x ← s.memory.value? a
    errorOf (f.eval x)
  | .binary f a b => do
    let x ← s.memory.value? a
    let y ← s.memory.value? b
    errorOf (f.eval x y)
  | .setChar a b c => do
    let x ← s.memory.value? a
    let y ← s.memory.value? b
    let z ← s.memory.value? c
    errorOf (Operator.setChar x y z)
  | .comparable =>
    match s.stack with
    | right :: left :: _ => errorOf (Operator.equals left right)
    | _ => none

/-- The cause of the first check that fails. -/
def firstFailure (p : Program) (s : State) (l : List Check) : Option Cause :=
  l.findSome? (Check.failure? p s)

/-! ## The checks of an instruction -/

/-- The checks for a variable of which the cell is needed. -/
def lookups (v : Variable) : List Check :=
  [.frame v.frame, .declared v]

/-- The checks for an operand of which the cell is needed, set or not. -/
def cellChecks : Operand → List Check
  | .var v => lookups v
  | _ => []

/-- The checks for an operand of which the value is needed. -/
def valueChecks : Operand → List Check
  | .var v => lookups v ++ [.assigned v]
  | _ => []

/-- The checks of an operation on its operands, the first one first. -/
def checksAs : Operation → List Operand → List Check
  | .move, [.var v, a] => lookups v ++ cellChecks a
  | .typeOf, [.var v, a] => lookups v ++ cellChecks a
  | .pop, [.var v] => lookups v ++ [.depth 1]
  | .read, [.var v, _] => lookups v ++ [.input]
  | .unary f, [.var v, a] => lookups v ++ valueChecks a ++ [.unary f a]
  | .binary f, [.var v, a, b] => lookups v ++ valueChecks a ++ valueChecks b ++ [.binary f a b]
  | .setChar, [.var v, a, b] =>
    lookups v ++ valueChecks (.var v) ++ valueChecks a ++ valueChecks b ++ [.setChar (.var v) a b]
  | .jumpIf _, [.label name, a, b] =>
    valueChecks a ++ valueChecks b ++ [.label name] ++ [.binary .equals a b]
  | .stackJumpIf _, [.label name] => [.depth 2, .label name, .comparable]
  | _, _ => []

/-- The checks of an instruction. -/
def checks (i : Instruction) : List Check :=
  checksAs i.opcode.operation i.args

/-! ## Computations that amount to checks -/

/-- A computation fails as the first of some checks that fails, and not at all if none does. -/
def Guards (p : Program) (s : State) {α : Type} (l : List Check) (r : Except Cause α) : Prop :=
  errorOf r = firstFailure p s l

section Guards

variable {α β : Type} {l l' : List Check} {r : Except Cause α} {f : α → Except Cause β}

theorem guards_ok (r : α) : Guards p s [] (.ok r) := rfl

theorem guards_single {check : Check} (h : errorOf r = check.failure? p s) :
    Guards p s [check] r := by
  unfold Guards firstFailure
  rw [h, List.findSome?_singleton]

/-- A check that passes does not matter. -/
theorem guards_cons {check : Check} (h : check.failure? p s = none) (hr : Guards p s l r) :
    Guards p s (check :: l) r := by
  unfold Guards firstFailure at *
  rw [List.findSome?_cons, h, hr]

/-- Computations in a row amount to their checks in a row. -/
theorem Guards.bind (hr : Guards p s l r) (hf : ∀ a, r = .ok a → Guards p s l' (f a)) :
    Guards p s (l ++ l') (r >>= f) := by
  unfold Guards firstFailure at *
  rw [List.findSome?_append, ← hr]
  cases r with
  | error cause => rfl
  | ok a => exact hf a rfl

/-- What follows without a check does not matter. -/
theorem Guards.then_ok (hr : Guards p s l r) {g : α → β} :
    Guards p s l (r >>= fun a => pure (g a)) := by
  unfold Guards at *
  rw [← hr]
  cases r with
  | error cause => rfl
  | ok a => rfl

end Guards

/-! ## Fetching operands -/

theorem guards_frame (p : Program) (s : State) (kind : FrameName) :
    Guards p s [.frame kind] (s.memory.frame kind) := by
  refine guards_single ?_
  unfold Memory.frame Check.failure?
  rcases hf : s.memory.frame? kind with _ | f
  · simp [errorOf, hf]
  · simp [errorOf, hf]

theorem guards_cell (p : Program) (s : State) (v : Variable) :
    Guards p s (lookups v) (s.memory.cell v) := by
  refine (guards_frame p s v.frame).bind fun f hf => guards_single ?_
  have hsome : s.memory.frame? v.frame = some f := by
    unfold Memory.frame at hf
    split at hf
    · cases hf
      assumption
    · cases hf
  simp only [Check.failure?, Memory.find?, hsome, Option.bind_some]
  rcases hx : f.get? v.name with _ | x
  · simp [errorOf]
  · simp [errorOf]

theorem guards_value (p : Program) (s : State) (v : Variable) :
    Guards p s (lookups v ++ [.assigned v]) (s.memory.value v) := by
  refine (guards_cell p s v).bind fun x hx => guards_single ?_
  have hfind := Memory.find?_of_cell hx
  cases x with
  | unset => simp [errorOf, Check.failure?, Memory.value?, hfind, Cell.value?]
  | holding x => simp [errorOf, Check.failure?, Memory.value?, hfind, Cell.value?]

theorem guards_cellArgument (ha : i.args[n]? = some a) (hfit : a.fits .symbol = true) :
    Guards p s (cellChecks a) (cellArgument s.memory i n) := by
  unfold cellArgument
  rw [argument_of_operand ha, ok_bind]
  cases a with
  | var v => exact guards_cell p s v
  | const c => exact guards_ok _
  | label name => cases hfit
  | type t => cases hfit

theorem guards_valueArgument (ha : i.args[n]? = some a) (hfit : a.fits .symbol = true) :
    Guards p s (valueChecks a) (valueArgument s.memory i n) := by
  unfold valueArgument
  rw [argument_of_operand ha, ok_bind]
  cases a with
  | var v => exact guards_value p s v
  | const c => exact guards_ok _
  | label name => cases hfit
  | type t => cases hfit

/-- The value that is fetched is the one that the checks of operators look at. -/
theorem value?_of_valueArgument (ha : i.args[n]? = some a)
    (h : valueArgument s.memory i n = .ok x) : s.memory.value? a = some x := by
  unfold valueArgument at h
  rw [argument_of_operand ha, ok_bind] at h
  cases a with
  | const c =>
    cases h
    rfl
  | var v =>
    simp only [operandValue, Memory.value, bind_eq_ok] at h
    obtain ⟨cell, hcell, h⟩ := h
    cases cell with
    | unset => cases h
    | holding y =>
      cases h
      simp [Memory.value?, Memory.find?_of_cell hcell, Cell.value?]
  | label name => cases h
  | type t => cases h

theorem guards_destination (ha : i.args[0]? = some (.var v)) :
    Guards p s (lookups v) (destination s.memory i) := by
  unfold destination variableArgument
  rw [argument_of_operand ha]
  exact (guards_cell p s v).then_ok

theorem guards_target (ha : i.args[0]? = some (.label name)) :
    Guards p s [.label name] (target p i) := by
  refine guards_single ?_
  unfold target labelArgument
  rw [argument_of_operand ha]
  simp only [ok_bind, Check.failure?]
  rcases p.labels.resolve? name with _ | place
  · simp [errorOf]
  · simp [errorOf]

theorem errorOf_map {ε α β : Type} (r : Except ε α) (g : α → β) :
    errorOf (r.map g) = errorOf r := by
  cases r with
  | error cause => rfl
  | ok a => rfl

/-! ## Deciding -/

theorem guards_unary {f : UnaryOperator} (ha : s.memory.value? a = some x) :
    Guards p s [.unary f a] (f.eval x) := by
  refine guards_single ?_
  simp [Check.failure?, ha]

theorem guards_binary {f : BinaryOperator} (ha : s.memory.value? a = some x)
    (hb : s.memory.value? b = some y) : Guards p s [.binary f a b] (f.eval x y) := by
  refine guards_single ?_
  simp [Check.failure?, ha, hb]

theorem guards_setChar (ha : s.memory.value? a = some x) (hb : s.memory.value? b = some y)
    (hc : s.memory.value? c = some z) :
    Guards p s [.setChar a b c] (Operator.setChar x y z) := by
  refine guards_single ?_
  simp [Check.failure?, ha, hb, hc]

/-- Comparing for a jump is what the operator does that gives the result as a value. -/
theorem guards_equals (ha : s.memory.value? a = some x) (hb : s.memory.value? b = some y) :
    Guards p s [.binary .equals a b] (Operator.equals x y) := by
  refine guards_single ?_
  simp [Check.failure?, ha, hb, BinaryOperator.eval, errorOf_map]

theorem eq_var_of_fits (h : a.fits .var = true) : ∃ v, a = .var v := by
  cases a with
  | var v => exact ⟨v, rfl⟩
  | _ => cases h

theorem eq_label_of_fits (h : a.fits .label = true) : ∃ name, a = .label name := by
  cases a with
  | label name => exact ⟨name, rfl⟩
  | _ => cases h

theorem eq_type_of_fits (h : a.fits .type = true) : ∃ t, a = .type t := by
  cases a with
  | type t => exact ⟨t, rfl⟩
  | _ => cases h

/-- Popping looks at the destination before it looks at the data stack. -/
theorem verdict_pop :
    (decisionAs p s i .pop).verdict = destination s.memory i >>= fun v =>
      match s.stack with
      | [] => .error .dataStackUnderflow
      | x :: _ => .ok (.store v (.holding x)) := by
  simp only [decisionAs]
  rcases destination s.memory i with cause | v
  · rfl
  · rcases s.stack with _ | ⟨x, rest⟩
    · rfl
    · rfl

/-- **Deciding follows the checks.** Only the input is left for later. -/
theorem guards_decisionAs {args : List Operand} (hargs : i.args = args)
    (h : List.Forall₂ (fun a kind => a.fits kind = true) args o.signature)
    (hfamily : o.assigns = true ∨ o.compares = true) (hread : o ≠ .read) :
    Guards p s (checksAs o args) (decisionAs p s i o).verdict := by
  have hget : ∀ n : Nat, i.args[n]? = args[n]? := fun n => by rw [hargs]
  cases o with
  | move | typeOf =>
    obtain _ | ⟨hv, _ | ⟨ha, _ | _⟩⟩ := h
    obtain ⟨v, rfl⟩ := eq_var_of_fits hv
    refine (guards_destination (hget 0)).bind fun w _ => ?_
    exact (guards_cellArgument (hget 1) ha).then_ok
  | pop =>
    obtain _ | ⟨hv, _ | _⟩ := h
    obtain ⟨v, rfl⟩ := eq_var_of_fits hv
    rw [verdict_pop]
    refine (guards_destination (hget 0)).bind fun w _ => guards_single ?_
    rcases hstack : s.stack with _ | ⟨x, rest⟩
    · simp [errorOf, Check.failure?, hstack]
    · simp [errorOf, Check.failure?, hstack]
  | unary f =>
    obtain _ | ⟨hv, _ | ⟨ha, _ | _⟩⟩ := h
    obtain ⟨v, rfl⟩ := eq_var_of_fits hv
    simp only [checksAs, List.append_assoc]
    refine (guards_destination (hget 0)).bind fun w _ => ?_
    refine (guards_valueArgument (hget 1) ha).bind fun x hx => ?_
    exact (guards_unary (value?_of_valueArgument (hget 1) hx)).then_ok
  | binary f =>
    obtain _ | ⟨hv, _ | ⟨ha, _ | ⟨hb, _ | _⟩⟩⟩ := h
    obtain ⟨v, rfl⟩ := eq_var_of_fits hv
    simp only [checksAs, List.append_assoc]
    refine (guards_destination (hget 0)).bind fun w _ => ?_
    refine (guards_valueArgument (hget 1) ha).bind fun x hx => ?_
    refine (guards_valueArgument (hget 2) hb).bind fun y hy => ?_
    exact (guards_binary (value?_of_valueArgument (hget 1) hx)
      (value?_of_valueArgument (hget 2) hy)).then_ok
  | setChar =>
    obtain _ | ⟨hv, _ | ⟨ha, _ | ⟨hb, _ | _⟩⟩⟩ := h
    obtain ⟨v, rfl⟩ := eq_var_of_fits hv
    simp only [checksAs, List.append_assoc]
    -- The first operand is fetched twice, as the destination and for its value.
    refine (guards_destination (hget 0)).bind fun w _ => ?_
    refine (guards_valueArgument (hget 0) rfl).bind fun x hx => ?_
    refine (guards_valueArgument (hget 1) ha).bind fun y hy => ?_
    refine (guards_valueArgument (hget 2) hb).bind fun z hz => ?_
    exact (guards_setChar (value?_of_valueArgument (hget 0) hx)
      (value?_of_valueArgument (hget 1) hy) (value?_of_valueArgument (hget 2) hz)).then_ok
  | jumpIf whenEqual =>
    obtain _ | ⟨hname, _ | ⟨ha, _ | ⟨hb, _ | _⟩⟩⟩ := h
    obtain ⟨name, rfl⟩ := eq_label_of_fits hname
    simp only [checksAs, List.append_assoc]
    -- The label is the first operand, and the last to be looked at.
    refine (guards_valueArgument (hget 1) ha).bind fun x hx => ?_
    refine (guards_valueArgument (hget 2) hb).bind fun y hy => ?_
    refine (guards_target (hget 0)).bind fun place _ => ?_
    exact (guards_equals (value?_of_valueArgument (hget 1) hx)
      (value?_of_valueArgument (hget 2) hy)).then_ok
  | stackJumpIf whenEqual =>
    obtain _ | ⟨hname, _ | _⟩ := h
    obtain ⟨name, rfl⟩ := eq_label_of_fits hname
    simp only [decisionAs, checksAs]
    -- With fewer than two values the depth fails first, whatever the label.
    rcases hstack : s.stack with _ | ⟨right, _ | ⟨left, rest⟩⟩
    · simp [Guards, firstFailure, Check.failure?, errorOf, hstack, Decision.of]
    · simp [Guards, firstFailure, Check.failure?, errorOf, hstack, Decision.of]
    · refine guards_cons (by simp [Check.failure?, hstack]) ?_
      refine Guards.bind (guards_target (hget 0)) fun place _ => ?_
      refine (guards_single ?_).then_ok
      simp [Check.failure?, hstack]
  | read => exact absurd rfl hread
  | _ => simp [Operation.assigns, Operation.compares] at hfamily

/-! ## Performing -/

/-- The cause of an outcome that is a failure. -/
def Outcome.cause? : Outcome → Option Cause
  | .fault cause _ => some cause
  | _ => none

theorem cause?_of_error {cause : Cause} (h : (decision p s i).verdict = .error cause) :
    (s.carryOut p i).cause? = some cause := by
  rw [State.carryOut_of_error h]
  rfl

theorem cause?_of_ok (h : (decision p s i).verdict = .ok e) :
    (s.carryOut p i).cause? = ((s.taking (decision p s i).taken).perform e).cause? := by
  unfold State.carryOut
  dsimp only
  rw [h]
  dsimp only
  split
  · rename_i hp
    rw [hp]
    rfl
  · rename_i hp
    rw [hp]
    rfl
  · rename_i hp
    rw [hp]

/-- Storing and jumping do not fail. -/
theorem perform_of_performs (s : State) (hfamily : o.assigns = true ∨ o.compares = true)
    (hread : o ≠ .read) (h : o.Performs e) : ∃ t, s.perform e = .next t := by
  cases o with
  | move | pop | typeOf | setChar | unary f | binary f =>
    cases e with
    | store v x => exact ⟨_, rfl⟩
    | _ => exact h.elim
  | jumpIf whenEqual | stackJumpIf whenEqual =>
    cases e with
    | jump place => exact ⟨_, rfl⟩
    | nothing => exact ⟨_, rfl⟩
    | _ => exact h.elim
  | read => exact absurd rfl hread
  | _ => simp [Operation.assigns, Operation.compares] at hfamily

theorem cause?_perform_read (s : State) (v : Variable) (type : ValueType) :
    (s.perform (.read v type)).cause? = (errorOf s.input.readLine.1).map .channel := by
  unfold State.perform
  dsimp only
  split
  · rename_i hread
    rw [hread]
    rfl
  · rename_i hread
    rw [hread]
    rfl

/-- What reading decides on, once its operands are known. -/
theorem verdict_read {type : ValueType} (ho : i.opcode.operation = .read)
    (hargs : i.args = [.var v, .type type]) (htype : type ≠ .nil) :
    (decision p s i).verdict = destination s.memory i >>= fun w => pure (.read w type) := by
  have hfetch : typeArgument i 1 = .ok type := by
    unfold typeArgument argument
    rw [hargs]
    rfl
  unfold decision
  rw [ho]
  simp only [decisionAs, Decision.of, hfetch, ok_bind, if_neg htype, pure_eq]

/-- Reading decides on the destination alone, and fails at the input after that. -/
theorem cause?_read (h : i.WellFormed) (ho : i.opcode.operation = .read) :
    (s.carryOut p i).cause? = firstFailure p s (checks i) := by
  have hfits := h.forall₂
  have hreadable := h.readable (Opcode.eq_read_of_operation ho)
  rw [ho] at hfits
  unfold checks
  rw [ho]
  generalize hargs : i.args = args at hfits hreadable ⊢
  obtain _ | ⟨hv, _ | ⟨ht, _ | _⟩⟩ := hfits
  obtain ⟨v, rfl⟩ := eq_var_of_fits hv
  obtain ⟨type, rfl⟩ := eq_type_of_fits ht
  have hverdict := verdict_read (p := p) (s := s) ho hargs (by rintro rfl; exact hreadable rfl)
  have hguards : Guards p s (lookups v) (decision p s i).verdict := by
    rw [hverdict]
    exact (guards_destination (by rw [hargs]; rfl)).then_ok
  -- If the destination fails, the input is not looked at; else it is all that is left.
  unfold checksAs firstFailure
  rw [List.findSome?_append]
  change _ = (firstFailure p s (lookups v)).or _
  rw [← hguards]
  rcases hd : destination s.memory i with cause | w
  · rw [hd] at hverdict
    rw [cause?_of_error hverdict, hverdict]
    rfl
  · rw [hd] at hverdict
    rw [cause?_of_ok hverdict, hverdict, cause?_perform_read, List.findSome?_singleton]
    rfl

/-- What an instruction fails for is its first check that fails. -/
theorem cause?_carryOut (h : i.WellFormed)
    (hfamily : i.opcode.operation.assigns = true ∨ i.opcode.operation.compares = true) :
    (s.carryOut p i).cause? = firstFailure p s (checks i) := by
  by_cases hread : i.opcode.operation = .read
  · exact cause?_read h hread
  · have hguards : Guards p s (checks i) (decision p s i).verdict :=
      guards_decisionAs rfl h.forall₂ hfamily hread
    rw [← hguards]
    rcases hverdict : (decision p s i).verdict with cause | e
    · exact cause?_of_error hverdict
    · obtain ⟨t, ht⟩ := perform_of_performs (s.taking (decision p s i).taken) hfamily hread
        (decision_performs hverdict)
      rw [cause?_of_ok hverdict, ht]
      rfl

/-! ## Storing -/

theorem var_of_argument (h : variableArgument i n = .ok v) : i.args[n]? = some (.var v) := by
  unfold variableArgument argument at h
  rcases hget : i.args[n]? with _ | a
  · rw [hget] at h
    cases h
  · rw [hget] at h
    cases a with
    | var w =>
      cases h
      rfl
    | _ => cases h

theorem destination_eq_ok {m : Memory} (h : destination m i = .ok v) :
    i.args[0]? = some (.var v) ∧ ∃ x, m.cell v = .ok x := by
  unfold destination at h
  obtain ⟨w, hw, h⟩ := bind_eq_ok.mp h
  obtain ⟨x, hx, h⟩ := bind_eq_ok.mp h
  cases h
  exact ⟨var_of_argument hw, x, hx⟩

/-- An assignment is decided for the destination that was checked. -/
theorem decisionAs_assigns (ho : o.assigns = true) (h : (decisionAs p s i o).verdict = .ok e) :
    ∃ v, destination s.memory i = .ok v ∧ ((∃ x, e = .store v x) ∨ ∃ type, e = .read v type) := by
  cases o with
  | move | typeOf =>
    simp only [decisionAs, Decision.of, bind_eq_ok, pure_eq, Except.ok.injEq] at h
    obtain ⟨v, hv, _, -, rfl⟩ := h
    exact ⟨v, hv, .inl ⟨_, rfl⟩⟩
  | unary f =>
    simp only [decisionAs, Decision.of, bind_eq_ok, pure_eq, Except.ok.injEq] at h
    obtain ⟨v, hv, _, -, _, -, rfl⟩ := h
    exact ⟨v, hv, .inl ⟨_, rfl⟩⟩
  | binary f =>
    simp only [decisionAs, Decision.of, bind_eq_ok, pure_eq, Except.ok.injEq] at h
    obtain ⟨v, hv, _, -, _, -, _, -, rfl⟩ := h
    exact ⟨v, hv, .inl ⟨_, rfl⟩⟩
  | setChar =>
    simp only [decisionAs, Decision.of, bind_eq_ok, pure_eq, Except.ok.injEq] at h
    obtain ⟨v, hv, _, -, _, -, _, -, _, -, rfl⟩ := h
    exact ⟨v, hv, .inl ⟨_, rfl⟩⟩
  | pop =>
    simp only [decisionAs] at h
    split at h
    · cases h
    · cases h
    · rename_i v x _ hv _
      cases h
      exact ⟨v, hv, .inl ⟨_, rfl⟩⟩
  | read =>
    simp only [decisionAs, Decision.of, bind_eq_ok] at h
    obtain ⟨v, hv, type, -, h⟩ := h
    split at h
    · cases h
    · cases h
      exact ⟨v, hv, .inr ⟨type, rfl⟩⟩
  | _ => cases ho

theorem assigns_of_performs (h : o.Performs e)
    (he : (∃ x, e = .store v x) ∨ ∃ type, e = .read v type) : o.assigns = true := by
  rcases he with ⟨x, rfl⟩ | ⟨type, rfl⟩
  · cases o with
    | move | pop | binary _ | unary _ | setChar | typeOf => rfl
    | _ => exact h.elim
  · rw [Operation.eq_read_of_performs h]
    rfl

/-- **Stores that are performed find their variable**: whatever is decided to be stored, or to be
read from the input, a store that looks for the variable itself gives the same memory. -/
theorem assign_of_verdict (h : (decision p s i).verdict = .ok e)
    (he : (∃ x, e = .store v x) ∨ ∃ type, e = .read v type) (y : Cell) :
    s.memory.assign v y = .ok (s.memory.store v y) := by
  have hassigns := assigns_of_performs (decision_performs h) he
  obtain ⟨w, hw, hwhich⟩ := decisionAs_assigns hassigns h
  obtain ⟨-, c, hc⟩ := destination_eq_ok hw
  have hvw : v = w := by
    rcases he with ⟨x, rfl⟩ | ⟨type, rfl⟩ <;> rcases hwhich with ⟨_, h'⟩ | ⟨_, h'⟩ <;> cases h'
    · rfl
    · rfl
  rw [hvw]
  exact Memory.assign_of_cell hc y

/-- The memory after an assignment that succeeds. -/
theorem perform_assigns {x : Cell} (hv : s.memory.cell v = .ok x)
    (he : (∃ y, e = .store v y) ∨ ∃ type, e = .read v type) (h : s.perform e = .next t) :
    ∃ y, s.memory.assign v y = .ok t.memory ∧ t.memory.cell v = .ok y := by
  have hstore : ∃ y, t.memory = s.memory.store v y := by
    rcases he with ⟨y, rfl⟩ | ⟨type, rfl⟩
    · cases h
      exact ⟨y, rfl⟩
    · unfold State.perform at h
      dsimp only at h
      split at h
      · cases h
        exact ⟨_, rfl⟩
      · cases h
  obtain ⟨y, hy⟩ := hstore
  refine ⟨y, ?_, ?_⟩
  · rw [hy, Memory.assign_of_cell hv]
  · rw [hy, Memory.cell_store hv]

/-! ## Steps -/

/-- What assigns has a variable in front. -/
theorem exists_destination (h : i.WellFormed) (ho : i.opcode.operation.assigns = true) :
    ∃ v, i.args[0]? = some (.var v) := by
  have hvar : i.opcode.signature[0]? = some .var := by
    rw [i.opcode.signature_eq]
    generalize i.opcode.operation = o at ho
    cases o with
    | move | pop | read | typeOf | setChar | unary f | binary f => rfl
    | _ => cases ho
  obtain ⟨a, ha, hfit⟩ := h.exists_operand hvar
  obtain ⟨v, rfl⟩ := eq_var_of_fits hfit
  exact ⟨v, ha⟩

/-- Neither an assignment nor a comparison ends the run. -/
theorem exists_next
    (hfamily : i.opcode.operation.assigns = true ∨ i.opcode.operation.compares = true)
    (h : (s.carryOut p i).cause? = none) : ∃ t, s.carryOut p i = .next t := by
  rcases hout : s.carryOut p i with t | ⟨code, t⟩ | ⟨cause, t⟩
  · exact ⟨t, rfl⟩
  · have hperforms := decision_performs (State.carryOut_eq_exit hout).1
    generalize i.opcode.operation = o at hfamily hperforms
    cases o with
    | exit => simp [Operation.assigns, Operation.compares] at hfamily
    | _ => exact hperforms.elim
  · rw [hout] at h
    cases h

theorem exists_of_lookups (h : firstFailure p s (lookups v) = none) :
    ∃ x, s.memory.cell v = .ok x := by
  have hguards := guards_cell p s v
  rcases hcell : s.memory.cell v with cause | x
  · rw [Guards, hcell, h] at hguards
    cases hguards
  · exact ⟨x, rfl⟩

/-- **The first failing check.** A step of a well-formed instruction that assigns or compares fails
for the first of its checks that fails, and it goes on if none does. If it assigns, the store cannot
fail once the destination was found, and a step that goes on has stored to the destination. -/
theorem step?_first_failure (hi : p.instructions[s.counter]? = some i) (h : i.WellFormed)
    (hfamily : i.opcode.operation.assigns = true ∨ i.opcode.operation.compares = true) :
    ∃ outcome, step? p s = some outcome ∧ outcome.cause? = firstFailure p s (checks i) ∧
      (outcome.cause? = none → ∃ t, outcome = .next t) ∧
      (i.opcode.operation.assigns = true → ∃ v, i.args[0]? = some (.var v) ∧
        (firstFailure p s (lookups v) = none →
          ∀ x, s.memory.assign v x = .ok (s.memory.store v x)) ∧
        ∀ t, outcome = .next t →
          ∃ x, s.memory.assign v x = .ok t.memory ∧ t.memory.cell v = .ok x) := by
  -- Moving the counter on changes nothing that a check looks at.
  have hcause : (s.advanced.carryOut p i).cause? = firstFailure p s (checks i) :=
    cause?_carryOut h hfamily
  refine ⟨_, step?_of_instruction hi, hcause, exists_next hfamily, fun ho => ?_⟩
  obtain ⟨v, hv⟩ := exists_destination h ho
  refine ⟨v, hv, fun hfound x => ?_, fun t ht => ?_⟩
  · obtain ⟨y, hy⟩ := exists_of_lookups hfound
    exact Memory.assign_of_cell hy x
  · obtain ⟨e, u, he, hu, rfl⟩ := State.carryOut_eq_next ht
    obtain ⟨w, hw, heffect⟩ := decisionAs_assigns ho he
    obtain ⟨hfirst, x, hx⟩ := destination_eq_ok hw
    obtain rfl : v = w := by
      rw [hv] at hfirst
      exact Operand.var.inj (Option.some.inj hfirst)
    have hstored := perform_assigns (s := s.advanced.taking _) hx heffect hu
    exact hstored

/-- An addition with three defects: its destination is not declared, its first operand lives in a
frame that does not exist, and its second operand is no number. -/
def faultyAddition : Instruction :=
  { opcode := .add
    args := [.var ⟨.global, "sum"⟩, .var ⟨.topLocal, "term"⟩, .const (.string "one")] }

theorem faultyAddition_wellFormed : faultyAddition.WellFormed where
  count := rfl
  fits := by
    intro n a kind ha hkind
    rcases n with _ | _ | _ | n
    · cases ha
      cases hkind
      rfl
    · cases ha
      cases hkind
      rfl
    · cases ha
      cases hkind
      rfl
    · cases ha
  readable := fun h => by cases h

/-- The destination comes first. -/
theorem step?_first_failure_addition :
    ∃ outcome,
      step? ⟨#[faultyAddition], .empty⟩ (State.initial { rest := [] } {} {}) = some outcome ∧
      outcome.cause? = some (.undefinedVariable ⟨.global, "sum"⟩) := by
  obtain ⟨outcome, hstep, hcause, -⟩ := step?_first_failure (p := ⟨#[faultyAddition], .empty⟩)
    (s := State.initial { rest := [] } {} {}) rfl faultyAddition_wellFormed (.inl rfl)
  exact ⟨outcome, hstep, hcause⟩

end Machine

end FrameCode
