import FrameCode.Proofs.Runs
import FrameCode.Proofs.Steps

/-!
# Stack forms and three-address forms

Most operators have two forms: one that names its operands and its destination, and one that finds
its operands on the data stack and leaves its result there. Pushing the operands, applying the stack
form and popping the result into a variable does what the three-address form does in one
instruction. The two go through different checks in a different order, so it is not obvious that
they fail alike; and since an operand may be the destination itself, neither is it that the operands
are read before the destination is written.

Both forms are measured against one thing, the result of the operator on the values of its operands
(`binaryResult`, `unaryResult`, `branchResult`). `Assigns` and `Branches` say what a number of
instructions does with such a result. Each form is shown to do so on its own, and the two forms then
agree because the result is the same.
-/

namespace FrameCode

/-- The program has, at a place, an instruction with the given opcode and operands. -/
def Program.HasAt (p : Program) (n : Nat) (op : Opcode) (args : List Operand) : Prop :=
  ∃ i, p.instructions[n]? = some i ∧ i.opcode = op ∧ i.args = args

/-- The program has, from a place on, instructions with the given opcodes and operands. -/
def Program.Reads (p : Program) : Nat → List (Opcode × List Operand) → Prop
  | _, [] => True
  | n, (op, args) :: rest => p.HasAt n op args ∧ p.Reads (n + 1) rest

/-! ## The two forms of an operator -/

/-- The binary operators with both forms, the three-address form first. -/
def Opcode.binaryForms : List (Opcode × Opcode) :=
  [(add, adds), (sub, subs), (mul, muls), (idiv, idivs), (lt, lts), (gt, gts), (eq, eqs),
   (and, ands), (or, ors), (charToInt, charToInts)]

/-- The unary operators with both forms. -/
def Opcode.unaryForms : List (Opcode × Opcode) :=
  [(not, nots), (intToChar, intToChars)]

/-- The conditional jumps with both forms. -/
def Opcode.jumpForms : List (Opcode × Opcode) :=
  [(jumpIfEq, jumpIfEqs), (jumpIfNeq, jumpIfNeqs)]

namespace Opcode

variable {op ops : Opcode}

theorem operator_of_binaryForms (h : (op, ops) ∈ binaryForms) :
    ∃ f, op.operation = .binary f ∧ ops.operation = .stackBinary f := by
  simp only [binaryForms, List.mem_cons, Prod.mk.injEq, List.not_mem_nil, or_false] at h
  rcases h with ⟨rfl, rfl⟩ | ⟨rfl, rfl⟩ | ⟨rfl, rfl⟩ | ⟨rfl, rfl⟩ | ⟨rfl, rfl⟩ | ⟨rfl, rfl⟩ |
    ⟨rfl, rfl⟩ | ⟨rfl, rfl⟩ | ⟨rfl, rfl⟩ | ⟨rfl, rfl⟩
  all_goals exact ⟨_, rfl, rfl⟩

theorem operator_of_unaryForms (h : (op, ops) ∈ unaryForms) :
    ∃ f, op.operation = .unary f ∧ ops.operation = .stackUnary f := by
  simp only [unaryForms, List.mem_cons, Prod.mk.injEq, List.not_mem_nil, or_false] at h
  rcases h with ⟨rfl, rfl⟩ | ⟨rfl, rfl⟩
  all_goals exact ⟨_, rfl, rfl⟩

theorem condition_of_jumpForms (h : (op, ops) ∈ jumpForms) :
    ∃ whenEqual, op.operation = .jumpIf whenEqual ∧ ops.operation = .stackJumpIf whenEqual := by
  simp only [jumpForms, List.mem_cons, Prod.mk.injEq, List.not_mem_nil, or_false] at h
  rcases h with ⟨rfl, rfl⟩ | ⟨rfl, rfl⟩
  all_goals exact ⟨_, rfl, rfl⟩

end Opcode

namespace Machine

open FrameCode.Checks

variable {p : Program} {s t : State} {a b : Operand} {x : Variable} {cause : Cause} {k n : Nat}

/-! ## Failing within a number of steps -/

/-- One of the next steps of the run fails for the given cause. -/
def FailsWithin (p : Program) (k : Nat) (s : State) (cause : Cause) : Prop :=
  ∃ n t u, n < k ∧ Steps p n s t ∧ step? p t = some (.fault cause u)

theorem failsWithin_one {u : State} (h : step? p s = some (.fault cause u)) :
    FailsWithin p 1 s cause :=
  ⟨0, s, u, Nat.zero_lt_one, .refl s, h⟩

theorem FailsWithin.after (hsteps : Steps p n s t) (h : FailsWithin p k t cause) :
    FailsWithin p (n + k) s cause := by
  obtain ⟨m, u, v, hlt, hm, hv⟩ := h
  exact ⟨n + m, u, v, by omega, hsteps.trans hm, hv⟩

theorem FailsWithin.mono {k' : Nat} (h : FailsWithin p k s cause) (hle : k ≤ k') :
    FailsWithin p k' s cause := by
  obtain ⟨m, u, v, hlt, hm, hv⟩ := h
  exact ⟨m, u, v, by omega, hm, hv⟩

/-! ## What a sequence of instructions does with a result -/

/-- A number of instructions assigns a result to a variable, or fails as the result does. -/
def Assigns (p : Program) (k : Nat) (s : State) (x : Variable) : Except Cause Value → Prop
  | .ok v => ∃ t, Steps p k s t ∧ t.counter = s.counter + k ∧
      t.memory = s.memory.store x (.holding v) ∧ t.calls = s.calls ∧ t.stack = s.stack
  | .error cause => FailsWithin p k s cause

/-- A number of instructions jumps to a label or passes on, as a result tells, or fails as the
result does. -/
def Branches (p : Program) (k : Nat) (s : State) (l : String) : Except Cause Bool → Prop
  | .ok taken => ∃ t, Steps p k s t ∧
      (if taken then p.labels.resolve? l = some t.counter else t.counter = s.counter + k) ∧
      t.memory = s.memory ∧ t.calls = s.calls ∧ t.stack = s.stack
  | .error cause => FailsWithin p k s cause

/-- The values of two operands, the left one first. -/
def operandValues (m : Memory) (a b : Operand) : Except Cause (Value × Value) := do
  return (← operandValue m a, ← operandValue m b)

/-- The result of a binary operator on two operands. -/
def binaryResult (f : BinaryOperator) (m : Memory) (a b : Operand) : Except Cause Value := do
  let (u, v) ← operandValues m a b
  f.eval u v

/-- The result of a unary operator on an operand. -/
def unaryResult (f : UnaryOperator) (m : Memory) (a : Operand) : Except Cause Value := do
  f.eval (← operandValue m a)

/-- Whether a conditional jump is taken. The label has to be defined even if it is not. -/
def branchResult (p : Program) (m : Memory) (whenEqual : Bool) (l : String) (a b : Operand) :
    Except Cause Bool := do
  let (u, v) ← operandValues m a b
  if (p.labels.resolve? l).isNone then .error (.undefinedLabel l)
  else return (← Operator.equals u v) == whenEqual

/-! ## The decisions on the instructions -/

section Decisions

variable {i : Instruction} {m : Memory} {rest : List Operand}

theorem valueArgument_of_args (h : i.args[n]? = some a) :
    valueArgument m i n = operandValue m a := by
  unfold valueArgument argument
  rw [h]
  rfl

theorem destination_of_args {c : Cell} (h : i.args = .var x :: rest) (hx : m.cell x = .ok c) :
    destination m i = .ok x := by
  unfold destination variableArgument argument
  rw [h]
  change (m.cell x >>= fun _ => pure x) = .ok x
  rw [hx]
  rfl

theorem target_of_args {l : String} (h : i.args = .label l :: rest) :
    target p i = match p.labels.resolve? l with
      | some place => .ok place
      | none => .error (.undefinedLabel l) := by
  unfold target labelArgument argument
  rw [h]
  rfl

theorem decision_push (hop : i.opcode.operation = .push) (hargs : i.args = [a]) :
    decision p s i = .of ((operandValue s.memory a).map .push) := by
  have ha : valueArgument s.memory i 0 = operandValue s.memory a :=
    valueArgument_of_args (by rw [hargs]; rfl)
  unfold decision
  rw [hop]
  simp only [decisionAs, ha]
  cases operandValue s.memory a <;> rfl

theorem decision_pop {c : Cell} {v : Value} {stack : List Value}
    (hop : i.opcode.operation = .pop) (hargs : i.args = [.var x]) (hx : s.memory.cell x = .ok c)
    (hs : s.stack = v :: stack) : decision p s i = ⟨1, .ok (.store x (.holding v))⟩ := by
  unfold decision
  rw [hop]
  simp only [decisionAs, destination_of_args hargs hx, hs]

theorem decision_binary {f : BinaryOperator} {c : Cell} (hop : i.opcode.operation = .binary f)
    (hargs : i.args = [.var x, a, b]) (hx : s.memory.cell x = .ok c) :
    decision p s i = .of ((binaryResult f s.memory a b).map fun v => .store x (.holding v)) := by
  have ha : valueArgument s.memory i 1 = operandValue s.memory a :=
    valueArgument_of_args (by rw [hargs]; rfl)
  have hb : valueArgument s.memory i 2 = operandValue s.memory b :=
    valueArgument_of_args (by rw [hargs]; rfl)
  unfold decision binaryResult operandValues
  rw [hop]
  simp only [decisionAs, destination_of_args hargs hx, ha, hb, ok_bind]
  rcases operandValue s.memory a with c | u
  · rfl
  rcases operandValue s.memory b with c | v
  · rfl
  simp only [ok_bind, pure_eq]
  cases f.eval u v <;> rfl

theorem decision_unary {f : UnaryOperator} {c : Cell} (hop : i.opcode.operation = .unary f)
    (hargs : i.args = [.var x, a]) (hx : s.memory.cell x = .ok c) :
    decision p s i = .of ((unaryResult f s.memory a).map fun v => .store x (.holding v)) := by
  have ha : valueArgument s.memory i 1 = operandValue s.memory a :=
    valueArgument_of_args (by rw [hargs]; rfl)
  unfold decision unaryResult
  rw [hop]
  simp only [decisionAs, destination_of_args hargs hx, ha, ok_bind]
  rcases operandValue s.memory a with c | u
  · rfl
  simp only [ok_bind]
  cases f.eval u <;> rfl

theorem decision_stackBinary {f : BinaryOperator} {u v : Value} {stack : List Value}
    (hop : i.opcode.operation = .stackBinary f) (hs : s.stack = v :: u :: stack) :
    decision p s i = ⟨2, (f.eval u v).map .push⟩ := by
  unfold decision
  rw [hop]
  simp only [decisionAs, hs]

theorem decision_stackUnary {f : UnaryOperator} {u : Value} {stack : List Value}
    (hop : i.opcode.operation = .stackUnary f) (hs : s.stack = u :: stack) :
    decision p s i = ⟨1, (f.eval u).map .push⟩ := by
  unfold decision
  rw [hop]
  simp only [decisionAs, hs]

/-- What a conditional jump does with the comparison of its two values: the label comes first. -/
theorem target_then_compare {whenEqual : Bool} {l : String} {u v : Value}
    (hargs : i.args = .label l :: rest) :
    (do
      let place ← target p i
      return jumpEffect place ((← Operator.equals u v) == whenEqual)) =
      (branchResult p m whenEqual l (.const u) (.const v)).map
        (jumpEffect ((p.labels.resolve? l).getD 0)) := by
  rw [target_of_args hargs]
  unfold branchResult operandValues
  simp only [operandValue, ok_bind, pure_eq]
  rcases p.labels.resolve? l with _ | place
  · rfl
  · simp only [ok_bind, Option.isNone_some, Bool.false_eq_true, if_false, Option.getD_some]
    cases Operator.equals u v <;> rfl

theorem branchResult_of_values (m' : Memory) {whenEqual : Bool} {l : String} {u v : Value}
    (h : operandValues m a b = .ok (u, v)) :
    branchResult p m' whenEqual l (.const u) (.const v) = branchResult p m whenEqual l a b := by
  unfold branchResult
  rw [h]
  rfl

theorem decision_jumpIf {whenEqual : Bool} {l : String}
    (hop : i.opcode.operation = .jumpIf whenEqual) (hargs : i.args = [.label l, a, b]) :
    decision p s i = .of ((branchResult p s.memory whenEqual l a b).map
      (jumpEffect ((p.labels.resolve? l).getD 0))) := by
  have ha : valueArgument s.memory i 1 = operandValue s.memory a :=
    valueArgument_of_args (by rw [hargs]; rfl)
  have hb : valueArgument s.memory i 2 = operandValue s.memory b :=
    valueArgument_of_args (by rw [hargs]; rfl)
  unfold decision
  rw [hop]
  simp only [decisionAs, ha, hb]
  rcases hu : operandValue s.memory a with c | u
  · unfold branchResult operandValues
    rw [hu]
    rfl
  rcases hv : operandValue s.memory b with c | v
  · unfold branchResult operandValues
    rw [hu, hv]
    rfl
  have huv : operandValues s.memory a b = .ok (u, v) := by
    unfold operandValues
    rw [hu, hv]
    rfl
  -- Both operands have values, and what is left to do is the same as for values on the stack.
  rw [← branchResult_of_values s.memory huv, ← target_then_compare hargs]
  rfl

theorem decision_stackJumpIf {whenEqual : Bool} {l : String} {u v : Value} {stack : List Value}
    (hop : i.opcode.operation = .stackJumpIf whenEqual) (hargs : i.args = [.label l])
    (hs : s.stack = v :: u :: stack) :
    decision p s i = ⟨2, (branchResult p s.memory whenEqual l (.const u) (.const v)).map
      (jumpEffect ((p.labels.resolve? l).getD 0))⟩ := by
  unfold decision
  rw [hop, ← target_then_compare hargs]
  simp only [decisionAs, hs]

end Decisions

/-! ## Instructions that only use the data stack -/

/-- A number of instructions passes on and changes nothing but the data stack. -/
structure Passes (p : Program) (k : Nat) (s t : State) : Prop where
  steps : Steps p k s t
  counter : t.counter = s.counter + k
  memory : t.memory = s.memory
  calls : t.calls = s.calls

theorem Passes.trans {u : State} (h : Passes p k s t) (h' : Passes p n t u) :
    Passes p (k + n) s u where
  steps := h.steps.trans h'.steps
  counter := by rw [h'.counter, h.counter, Nat.add_assoc]
  memory := h'.memory.trans h.memory
  calls := h'.calls.trans h.calls

/-- The next instruction after some that have passed on. -/
theorem Passes.hasAt {op : Opcode} {args : List Operand} (h : Passes p k s t)
    (hi : p.HasAt (s.counter + k) op args) : p.HasAt t.counter op args := by
  rw [h.counter]
  exact hi

/-- An instruction that fails after some have passed on. -/
theorem Passes.failsWithin {i : Instruction} {m : Nat} (h : Passes p k s t)
    (hi : p.instructions[t.counter]? = some i)
    (hd : decision p t.advanced i = ⟨m, .error cause⟩) : FailsWithin p (k + 1) s cause :=
  .after h.steps (failsWithin_one (step?_of_error hi hd))

theorem push_error (h : p.HasAt s.counter .pushs [a])
    (hv : operandValue s.memory a = .error cause) : FailsWithin p 1 s cause := by
  obtain ⟨i, hi, hop, hargs⟩ := h
  have hd := decision_push (p := p) (s := s.advanced) (by rw [hop]; rfl) hargs
  change _ = Decision.of ((operandValue s.memory a).map .push) at hd
  rw [hv] at hd
  exact failsWithin_one (step?_of_error hi hd)

theorem push_ok {v : Value} (h : p.HasAt s.counter .pushs [a])
    (hv : operandValue s.memory a = .ok v) : ∃ t, Passes p 1 s t ∧ t.stack = v :: s.stack := by
  obtain ⟨i, hi, hop, hargs⟩ := h
  have hd := decision_push (p := p) (s := s.advanced) (by rw [hop]; rfl) hargs
  change _ = Decision.of ((operandValue s.memory a).map .push) at hd
  rw [hv] at hd
  exact ⟨_, ⟨.single (step?_of_next hi hd rfl), rfl, rfl, rfl⟩, rfl⟩

theorem push_push_error (ha : p.HasAt s.counter .pushs [a])
    (hb : p.HasAt (s.counter + 1) .pushs [b]) (h : operandValues s.memory a b = .error cause) :
    FailsWithin p 2 s cause := by
  unfold operandValues at h
  rcases bind_eq_error.mp h with hu | ⟨u, hu, h⟩
  · exact (push_error ha hu).mono (by omega)
  · obtain ⟨s₁, h₁, -⟩ := push_ok ha hu
    have hv : operandValue s₁.memory b = .error cause := by
      rw [h₁.memory]
      rcases bind_eq_error.mp h with h | ⟨_, -, h⟩
      · exact h
      · cases h
    exact .after h₁.steps (push_error (h₁.hasAt hb) hv)

theorem push_push_ok {u v : Value} (ha : p.HasAt s.counter .pushs [a])
    (hb : p.HasAt (s.counter + 1) .pushs [b]) (h : operandValues s.memory a b = .ok (u, v)) :
    ∃ t, Passes p 2 s t ∧ t.stack = v :: u :: s.stack := by
  unfold operandValues at h
  simp only [bind_eq_ok, pure_eq, Except.ok.injEq, Prod.mk.injEq] at h
  obtain ⟨_, hu, _, hv, rfl, rfl⟩ := h
  obtain ⟨s₁, h₁, hstack₁⟩ := push_ok ha hu
  rw [← h₁.memory] at hv
  obtain ⟨s₂, h₂, hstack₂⟩ := push_ok (h₁.hasAt hb) hv
  exact ⟨s₂, h₁.trans h₂, by rw [hstack₂, hstack₁]⟩

/-! ## Assigning a result -/

/-- A three-address form assigns its result in one step. -/
theorem assigns_of_decision {i : Instruction} {r : Except Cause Value}
    (hi : p.instructions[s.counter]? = some i)
    (hd : decision p s.advanced i = .of (r.map fun v => .store x (.holding v))) :
    Assigns p 1 s x r := by
  rcases r with cause | v
  · exact failsWithin_one (step?_of_error hi hd)
  · exact ⟨_, .single (step?_of_next hi hd rfl), rfl, rfl, rfl, rfl⟩

theorem assigns_binary {f : BinaryOperator} {op : Opcode} {c : Cell}
    (hop : op.operation = .binary f) (hx : s.memory.cell x = .ok c)
    (h : p.Reads s.counter [(op, [.var x, a, b])]) :
    Assigns p 1 s x (binaryResult f s.memory a b) := by
  obtain ⟨⟨i, hi, hopi, hargs⟩, -⟩ := h
  apply assigns_of_decision hi
  exact decision_binary (by rw [hopi]; exact hop) hargs hx

theorem assigns_unary {f : UnaryOperator} {op : Opcode} {c : Cell}
    (hop : op.operation = .unary f) (hx : s.memory.cell x = .ok c)
    (h : p.Reads s.counter [(op, [.var x, a])]) :
    Assigns p 1 s x (unaryResult f s.memory a) := by
  obtain ⟨⟨i, hi, hopi, hargs⟩, -⟩ := h
  apply assigns_of_decision hi
  exact decision_unary (by rw [hopi]; exact hop) hargs hx

/-- The value on the top of the data stack goes where a three-address form would have put it. -/
theorem assigns_pop {c : Cell} {v : Value} (h : Passes p k s t)
    (hpop : p.HasAt (s.counter + k) .pops [.var x]) (hx : s.memory.cell x = .ok c)
    (hstack : t.stack = v :: s.stack) : Assigns p (k + 1) s x (.ok v) := by
  obtain ⟨i, hi, hop, hargs⟩ := h.hasAt hpop
  have hx' : t.memory.cell x = .ok c := by
    rw [h.memory]
    exact hx
  have hd := decision_pop (p := p) (s := t.advanced) (by rw [hop]; rfl) hargs hx' hstack
  refine ⟨_, h.steps.trans (.single (step?_of_next hi hd rfl)), ?_, ?_, h.calls, ?_⟩
  · change t.counter + 1 = s.counter + (k + 1)
    rw [h.counter, Nat.add_assoc]
  · change t.memory.store x _ = s.memory.store x _
    rw [h.memory]
  · change t.stack.drop 1 = s.stack
    rw [hstack]
    rfl

/-- A stack form with its operands on the data stack, and the instruction that pops its result. -/
theorem assigns_of_stack_decision {i : Instruction} {c : Cell} {m : Nat} {r : Except Cause Value}
    (h : Passes p k s t) (hi : p.instructions[t.counter]? = some i)
    (hd : decision p t.advanced i = ⟨m, r.map .push⟩) (hstack : t.stack.drop m = s.stack)
    (hpop : p.HasAt (s.counter + (k + 1)) .pops [.var x]) (hx : s.memory.cell x = .ok c) :
    Assigns p (k + 2) s x r := by
  rcases r with cause | v
  · exact (h.failsWithin hi hd).mono (by omega)
  · have hstep := step?_of_next hi hd rfl
    -- The step pushes its result onto what the operands left behind, which is the stack of `s`.
    refine assigns_pop (h.trans ⟨.single hstep, rfl, rfl, rfl⟩) hpop hx ?_
    change v :: t.stack.drop m = v :: s.stack
    rw [hstack]

/-- Pushing the operands, applying the stack form and popping assigns the result of the operator. -/
theorem assigns_stackBinary {f : BinaryOperator} {ops : Opcode} {c : Cell}
    (hop : ops.operation = .stackBinary f) (hx : s.memory.cell x = .ok c)
    (h : p.Reads s.counter [(.pushs, [a]), (.pushs, [b]), (ops, []), (.pops, [.var x])]) :
    Assigns p 4 s x (binaryResult f s.memory a b) := by
  obtain ⟨ha, hb, hops, hpop, -⟩ := h
  unfold binaryResult
  rcases huv : operandValues s.memory a b with cause | ⟨u, v⟩
  · exact (push_push_error ha hb huv).mono (by omega)
  · obtain ⟨s₂, h₂, hstack₂⟩ := push_push_ok ha hb huv
    obtain ⟨i, hi, hopi, -⟩ := h₂.hasAt hops
    have hd := decision_stackBinary (p := p) (s := s₂.advanced) (by rw [hopi]; exact hop) hstack₂
    refine assigns_of_stack_decision h₂ hi hd ?_ hpop hx
    rw [hstack₂]
    rfl

theorem assigns_stackUnary {f : UnaryOperator} {ops : Opcode} {c : Cell}
    (hop : ops.operation = .stackUnary f) (hx : s.memory.cell x = .ok c)
    (h : p.Reads s.counter [(.pushs, [a]), (ops, []), (.pops, [.var x])]) :
    Assigns p 3 s x (unaryResult f s.memory a) := by
  obtain ⟨ha, hops, hpop, -⟩ := h
  unfold unaryResult
  rcases hu : operandValue s.memory a with cause | u
  · exact (push_error ha hu).mono (by omega)
  · obtain ⟨s₁, h₁, hstack₁⟩ := push_ok ha hu
    obtain ⟨i, hi, hopi, -⟩ := h₁.hasAt hops
    have hd := decision_stackUnary (p := p) (s := s₁.advanced) (by rw [hopi]; exact hop) hstack₁
    refine assigns_of_stack_decision h₁ hi hd ?_ hpop hx
    rw [hstack₁]
    rfl

/-! ## Branching on a result -/

theorem isSome_of_branchResult {m : Memory} {whenEqual taken : Bool} {l : String}
    (h : branchResult p m whenEqual l a b = .ok taken) : (p.labels.resolve? l).isSome := by
  unfold branchResult at h
  rw [bind_eq_ok] at h
  obtain ⟨⟨u, v⟩, -, h⟩ := h
  dsimp only at h
  split at h
  · cases h
  · rename_i hdefined
    rw [Bool.not_eq_true, Option.isNone_eq_false_iff] at hdefined
    exact hdefined

/-- A conditional jump with its operands at hand, after instructions that have passed on. -/
theorem branches_of_decision {i : Instruction} {whenEqual : Bool} {l : String} {m : Nat}
    (h : Passes p k s t) (hi : p.instructions[t.counter]? = some i)
    (hd : decision p t.advanced i = ⟨m, (branchResult p s.memory whenEqual l a b).map
      (jumpEffect ((p.labels.resolve? l).getD 0))⟩)
    (hstack : t.stack.drop m = s.stack) :
    Branches p (k + 1) s l (branchResult p s.memory whenEqual l a b) := by
  rcases hr : branchResult p s.memory whenEqual l a b with cause | taken
  · rw [hr] at hd
    exact h.failsWithin hi hd
  · rw [hr] at hd
    obtain ⟨place, hplace⟩ := Option.isSome_iff_exists.mp (isSome_of_branchResult hr)
    rw [hplace] at hd
    cases taken with
    | true =>
      have hsteps := h.steps.trans (.single (step?_of_next hi hd rfl))
      refine ⟨_, hsteps, ?_, h.memory, h.calls, hstack⟩
      rw [if_pos rfl, hplace]
      rfl
    | false =>
      have hsteps := h.steps.trans (.single (step?_of_next hi hd rfl))
      refine ⟨_, hsteps, ?_, h.memory, h.calls, hstack⟩
      rw [if_neg Bool.false_ne_true]
      change t.counter + 1 = s.counter + (k + 1)
      rw [h.counter, Nat.add_assoc]

theorem branches_jumpIf {whenEqual : Bool} {op : Opcode} {l : String}
    (hop : op.operation = .jumpIf whenEqual)
    (h : p.Reads s.counter [(op, [.label l, a, b])]) :
    Branches p 1 s l (branchResult p s.memory whenEqual l a b) := by
  obtain ⟨⟨i, hi, hopi, hargs⟩, -⟩ := h
  have hd := decision_jumpIf (p := p) (s := s.advanced) (by rw [hopi]; exact hop) hargs
  exact branches_of_decision ⟨.refl s, rfl, rfl, rfl⟩ hi hd rfl

/-- Pushing the operands and jumping by the stack form branches as the operands compare. -/
theorem branches_stackJumpIf {whenEqual : Bool} {ops : Opcode} {l : String}
    (hop : ops.operation = .stackJumpIf whenEqual)
    (h : p.Reads s.counter [(.pushs, [a]), (.pushs, [b]), (ops, [.label l])]) :
    Branches p 3 s l (branchResult p s.memory whenEqual l a b) := by
  obtain ⟨ha, hb, hops, -⟩ := h
  rcases huv : operandValues s.memory a b with cause | ⟨u, v⟩
  · unfold branchResult
    rw [huv]
    exact (push_push_error ha hb huv).mono (by omega)
  · obtain ⟨s₂, h₂, hstack₂⟩ := push_push_ok ha hb huv
    obtain ⟨i, hi, hopi, hargs⟩ := h₂.hasAt hops
    have hd := decision_stackJumpIf (p := p) (s := s₂.advanced) (by rw [hopi]; exact hop) hargs
      hstack₂
    rw [branchResult_of_values _ huv] at hd
    refine branches_of_decision h₂ hi hd ?_
    rw [hstack₂]
    rfl

/-! ## The two forms agree -/

/-- Two states with the same frames, the same call stack and the same data stack. -/
structure SameData (s t : State) : Prop where
  memory : s.memory = t.memory
  calls : s.calls = t.calls
  stack : s.stack = t.stack

/-- A number of instructions in one program and a number in another both pass on and leave the same
data, or both fail for the same cause. -/
def PassAlike (p : Program) (k : Nat) (s : State) (q : Program) (k' : Nat) (t : State) : Prop :=
  (∃ s' t', Steps p k s s' ∧ Steps q k' t t' ∧ SameData s' t' ∧
    s'.counter = s.counter + k ∧ t'.counter = t.counter + k') ∨
  ∃ cause, FailsWithin p k s cause ∧ FailsWithin q k' t cause

/-- A number of instructions in one program and a number in another both jump to a label or both
pass on, and leave the same data, or both fail for the same cause. -/
def BranchAlike (p : Program) (k : Nat) (s : State) (q : Program) (k' : Nat) (t : State)
    (l : String) : Prop :=
  (∃ s' t', Steps p k s s' ∧ Steps q k' t t' ∧ SameData s' t' ∧
    (p.labels.resolve? l = some s'.counter ∧ q.labels.resolve? l = some t'.counter ∨
      s'.counter = s.counter + k ∧ t'.counter = t.counter + k')) ∨
  ∃ cause, FailsWithin p k s cause ∧ FailsWithin q k' t cause

section Agreement

variable {q : Program} {k' : Nat}

theorem passAlike_of_assigns {r : Except Cause Value} (hst : SameData s t)
    (hs : Assigns p k s x r) (ht : Assigns q k' t x r) : PassAlike p k s q k' t := by
  rcases r with cause | v
  · exact .inr ⟨cause, hs, ht⟩
  · obtain ⟨s', hs', hc, hm, hcl, hstack⟩ := hs
    obtain ⟨t', ht', hc', hm', hcl', hstack'⟩ := ht
    refine .inl ⟨s', t', hs', ht', ⟨?_, ?_, ?_⟩, hc, hc'⟩
    · rw [hm, hm', hst.memory]
    · rw [hcl, hcl', hst.calls]
    · rw [hstack, hstack', hst.stack]

theorem branchAlike_of_branches {l : String} {r : Except Cause Bool} (hst : SameData s t)
    (hs : Branches p k s l r) (ht : Branches q k' t l r) : BranchAlike p k s q k' t l := by
  rcases r with cause | taken
  · exact .inr ⟨cause, hs, ht⟩
  · obtain ⟨s', hs', hc, hm, hcl, hstack⟩ := hs
    obtain ⟨t', ht', hc', hm', hcl', hstack'⟩ := ht
    refine .inl ⟨s', t', hs', ht', ⟨?_, ?_, ?_⟩, ?_⟩
    · rw [hm, hm', hst.memory]
    · rw [hcl, hcl', hst.calls]
    · rw [hstack, hstack', hst.stack]
    · cases taken with
      | true => exact .inl ⟨hc, hc'⟩
      | false => exact .inr ⟨hc, hc'⟩

/-- Whether a jump is taken depends on the program in one respect: its label has to be defined. -/
theorem branchResult_congr {m : Memory} {whenEqual : Bool} {l : String}
    (h : (p.labels.resolve? l).isSome = (q.labels.resolve? l).isSome) :
    branchResult p m whenEqual l a b = branchResult q m whenEqual l a b := by
  have hnone : (p.labels.resolve? l).isNone = (q.labels.resolve? l).isNone := by
    rw [← Option.not_isSome, ← Option.not_isSome, h]
  unfold branchResult
  rw [hnone]

/-- **The stack forms refine the three-address forms.** Let one machine be about to push the
operands and apply a stack form, and another, with the same frames and stacks, about to carry out
the three-address form. If the destination is declared, both pass on with the same data or both
fail for the same cause, for all operators that have both forms and for all operands, which may be
the destination itself. The conditional jumps also agree on whether the jump is taken. The two may
be one program or two: what matters of the program is that the label is defined in both or in
neither. -/
theorem stack_forms_agree (hst : SameData s t) :
    (∀ op ops x c, (op, ops) ∈ Opcode.binaryForms → s.memory.cell x = .ok c →
      p.Reads s.counter [(.pushs, [a]), (.pushs, [b]), (ops, []), (.pops, [.var x])] →
      q.Reads t.counter [(op, [.var x, a, b])] → PassAlike p 4 s q 1 t) ∧
    (∀ op ops x c, (op, ops) ∈ Opcode.unaryForms → s.memory.cell x = .ok c →
      p.Reads s.counter [(.pushs, [a]), (ops, []), (.pops, [.var x])] →
      q.Reads t.counter [(op, [.var x, a])] → PassAlike p 3 s q 1 t) ∧
    (∀ op ops l, (op, ops) ∈ Opcode.jumpForms →
      (p.labels.resolve? l).isSome = (q.labels.resolve? l).isSome →
      p.Reads s.counter [(.pushs, [a]), (.pushs, [b]), (ops, [.label l])] →
      q.Reads t.counter [(op, [.label l, a, b])] → BranchAlike p 3 s q 1 t l) := by
  refine ⟨?_, ?_, ?_⟩
  · intro op ops x c hforms hx hstack hdirect
    obtain ⟨f, hop, hops⟩ := Opcode.operator_of_binaryForms hforms
    -- Both forms assign one result, which depends on the memory alone.
    have hs := assigns_stackBinary hops hx hstack
    rw [hst.memory] at hx
    have ht := assigns_binary hop hx hdirect
    rw [← hst.memory] at ht
    exact passAlike_of_assigns hst hs ht
  · intro op ops x c hforms hx hstack hdirect
    obtain ⟨f, hop, hops⟩ := Opcode.operator_of_unaryForms hforms
    have hs := assigns_stackUnary hops hx hstack
    rw [hst.memory] at hx
    have ht := assigns_unary hop hx hdirect
    rw [← hst.memory] at ht
    exact passAlike_of_assigns hst hs ht
  · intro op ops l hforms hdefined hstack hdirect
    obtain ⟨whenEqual, hop, hops⟩ := Opcode.condition_of_jumpForms hforms
    have hs := branches_stackJumpIf hops hstack
    have ht := branches_jumpIf hop hdirect
    rw [← hst.memory, ← branchResult_congr hdefined] at ht
    exact branchAlike_of_branches hst hs ht

end Agreement

/-- A program that has subtraction, negation and an equality jump on one variable in both forms. -/
def bothForms : Program :=
  let x : Variable := ⟨.global, "x"⟩
  ⟨#[{ opcode := .pushs, args := [.var x] }, { opcode := .pushs, args := [.const (.int 2)] },
    { opcode := .subs, args := [] }, { opcode := .pops, args := [.var x] },
    { opcode := .sub, args := [.var x, .var x, .const (.int 2)] },
    { opcode := .pushs, args := [.var x] }, { opcode := .nots, args := [] },
    { opcode := .pops, args := [.var x] }, { opcode := .not, args := [.var x, .var x] },
    { opcode := .pushs, args := [.var x] }, { opcode := .pushs, args := [.const .nil] },
    { opcode := .jumpIfNeqs, args := [.label "end"] },
    { opcode := .jumpIfNeq, args := [.label "end", .var x, .const .nil] },
    { opcode := .label, args := [.label "end"] }], ⟨[("end", 13)]⟩⟩

/-- A state at a place, with one variable, which holds seven. -/
def holdingSeven (place : Nat) : State :=
  { State.initial { rest := [] } {} {} with
    counter := place
    memory := ⟨⟨[("x", .holding (.int 7))], List.pairwise_singleton ..⟩, [], none⟩ }

/-- The operand that is the destination too: the difference is assigned, the negation fails and the
jump is taken, in both forms. -/
theorem stack_forms_agree_bothForms :
    PassAlike bothForms 4 (holdingSeven 0) bothForms 1 (holdingSeven 4) ∧
    PassAlike bothForms 3 (holdingSeven 5) bothForms 1 (holdingSeven 8) ∧
    BranchAlike bothForms 3 (holdingSeven 9) bothForms 1 (holdingSeven 12) "end" := by
  let x : Variable := ⟨.global, "x"⟩
  have hx (place : Nat) : (holdingSeven place).memory.cell x = .ok (.holding (.int 7)) := rfl
  have hst (m n : Nat) : SameData (holdingSeven m) (holdingSeven n) := ⟨rfl, rfl, rfl⟩
  have hreads {n : Nat} {op : Opcode} {args : List Operand} {i : Instruction}
      (hi : bothForms.instructions[n]? = some i) (hop : i.opcode = op) (hargs : i.args = args) :
      bothForms.HasAt n op args := ⟨i, hi, hop, hargs⟩
  refine ⟨?_, ?_, ?_⟩
  · refine (stack_forms_agree (a := .var x) (b := .const (.int 2)) (hst 0 4)).1 .sub .subs x _
      (by decide) (hx 0) ⟨?_, ?_, ?_, ?_, trivial⟩ ⟨?_, trivial⟩
    all_goals exact hreads rfl rfl rfl
  · refine (stack_forms_agree (a := .var x) (b := .const .nil) (hst 5 8)).2.1 .not .nots x _
      (by decide) (hx 5) ⟨?_, ?_, ?_, trivial⟩ ⟨?_, trivial⟩
    all_goals exact hreads rfl rfl rfl
  · refine (stack_forms_agree (a := .var x) (b := .const .nil) (hst 9 12)).2.2 .jumpIfNeq
      .jumpIfNeqs "end" (by decide) rfl ⟨?_, ?_, ?_, trivial⟩ ⟨?_, trivial⟩
    all_goals exact hreads rfl rfl rfl

end Machine

end FrameCode
