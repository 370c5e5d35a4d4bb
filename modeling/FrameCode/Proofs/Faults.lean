import FrameCode.Proofs.Causes
import FrameCode.Proofs.Steps

/-!
# What a failing instruction leaves behind

An instruction checks everything it can check before it changes anything, so one that fails leaves
the machine as it was, with its counter already moved on. There are two exceptions. An operator on
the data stack takes its operands before it looks at them, and they are gone if it fails; and a
channel that fails may have taken or lost bytes.

`Opcode.stackOperands` lists the opcodes of the first kind with the number of values they take. The
decision on an instruction says how many values it took (`decision_taken_of_error`), and for the
second kind `perform_eq_fault` says which channel was used.
-/

namespace FrameCode

/-- The number of values that a stack form of an opcode takes off the data stack; zero for every
other opcode. -/
def Opcode.stackOperands : Opcode → Nat
  | adds | subs | muls | idivs | lts | gts | eqs | ands | ors | charToInts
  | jumpIfEqs | jumpIfNeqs => 2
  | nots | intToChars => 1
  | _ => 0

/-- The number of values that an operation on the data stack takes. -/
def Operation.stackOperands : Operation → Nat
  | .stackBinary _ | .stackJumpIf _ => 2
  | .stackUnary _ => 1
  | _ => 0

theorem Opcode.stackOperands_eq (op : Opcode) :
    op.stackOperands = op.operation.stackOperands := by
  cases op <;> rfl

namespace Machine

open FrameCode.Checks

variable {p : Program} {s t : State} {i : Instruction} {cause : Cause} {e : Effect}

/-! ## How many values are gone -/

theorem not_underflow_of_operator {α : Type} {x : Except Cause α}
    (h : FailsOnly Cause.OfOperator x) : x ≠ .error .dataStackUnderflow := by
  intro hx
  exact h _ hx

/-- Looking for a target and comparing two values does not complain about the data stack. -/
theorem not_underflow_of_jump {β : Type} {a b : Value} {f : Nat → Bool → Except Cause β}
    (hf : ∀ place equal, f place equal ≠ .error .dataStackUnderflow) :
    (do let place ← target p i; let equal ← Operator.equals a b; f place equal)
      ≠ .error .dataStackUnderflow := by
  intro h
  rcases bind_eq_error.mp h with h | ⟨place, -, h⟩
  · rcases target_failsOnly p i _ h with h | ⟨_, h⟩
    · cases h
    · cases h
  · rcases bind_eq_error.mp h with h | ⟨equal, -, h⟩
    · exact not_underflow_of_operator (Operator.equals_failsOnly a b) h
    · exact hf place equal h

/-- An instruction that fails its checks has taken its stack operands if they were all there, and
nothing otherwise. If it complains about missing values it has taken none. -/
theorem decisionAs_taken_of_error {o : Operation}
    (h : (decisionAs p s i o).verdict = .error cause) :
    (o.stackOperands ≤ s.stack.length → (decisionAs p s i o).taken = o.stackOperands) ∧
      (s.stack.length < o.stackOperands → (decisionAs p s i o).taken = 0) ∧
      (cause = .dataStackUnderflow → (decisionAs p s i o).taken = 0) := by
  cases o with
  | stackBinary f =>
    -- With fewer than two values nothing is taken. With two, both are gone, and a failure is then
    -- one of the operator, which knows nothing of missing values.
    rcases hs : s.stack with _ | ⟨right, _ | ⟨left, rest⟩⟩
    · simp [decisionAs, hs, Decision.of, Operation.stackOperands]
    · simp [decisionAs, hs, Decision.of, Operation.stackOperands]
    · simp only [decisionAs, hs] at h ⊢
      refine ⟨fun _ => rfl, ?_, ?_⟩
      · intro hlt
        simp only [List.length_cons, Operation.stackOperands] at hlt
        omega
      · rintro rfl
        exact absurd (map_eq_error.mp h) (not_underflow_of_operator (f.eval_failsOnly left right))
  | stackUnary f =>
    rcases hs : s.stack with _ | ⟨x, rest⟩
    · simp [decisionAs, hs, Decision.of, Operation.stackOperands]
    · simp only [decisionAs, hs] at h ⊢
      refine ⟨fun _ => rfl, ?_, ?_⟩
      · intro hlt
        simp only [List.length_cons, Operation.stackOperands] at hlt
        omega
      · rintro rfl
        exact absurd (map_eq_error.mp h) (not_underflow_of_operator (f.eval_failsOnly x))
  | stackJumpIf whenEqual =>
    rcases hs : s.stack with _ | ⟨right, _ | ⟨left, rest⟩⟩
    · simp [decisionAs, hs, Decision.of, Operation.stackOperands]
    · simp [decisionAs, hs, Decision.of, Operation.stackOperands]
    · simp only [decisionAs, hs] at h ⊢
      refine ⟨fun _ => rfl, ?_, ?_⟩
      · intro hlt
        simp only [List.length_cons, Operation.stackOperands] at hlt
        omega
      · rintro rfl
        exact absurd h (not_underflow_of_jump fun _ _ h => by cases h)
  | pop =>
    -- The value on the top is taken with the decision to store it, so never by a failure.
    simp only [decisionAs] at h ⊢
    split at h
    · exact ⟨fun _ => rfl, fun _ => rfl, fun _ => rfl⟩
    · exact ⟨fun _ => rfl, fun _ => rfl, fun _ => rfl⟩
    · cases h
  | _ => exact ⟨fun _ => rfl, fun _ => rfl, fun _ => rfl⟩

theorem decision_taken_of_error (h : (decision p s i).verdict = .error cause) :
    (i.opcode.stackOperands ≤ s.stack.length → (decision p s i).taken = i.opcode.stackOperands) ∧
      (s.stack.length < i.opcode.stackOperands → (decision p s i).taken = 0) ∧
      (cause = .dataStackUnderflow → (decision p s i).taken = 0) := by
  rw [Opcode.stackOperands_eq]
  exact decisionAs_taken_of_error h

/-- The operations that use a channel leave the data stack alone. -/
theorem taken_eq_zero_of_channel
    (h : i.opcode = .read ∨ i.opcode = .write ∨ i.opcode = .debugPrint ∨ i.opcode = .breakpoint) :
    (decision p s i).taken = 0 ∧ i.opcode.stackOperands = 0 := by
  unfold decision
  rcases h with h | h | h | h
  all_goals
    rw [h]
    exact ⟨rfl, rfl⟩

/-! ## A failing step -/

/-- What is the same before and after an instruction that fails, channels apart: the frames, the
places to come back to and the profile. The counter has moved past the instruction, and the data
stack has lost a number of values. -/
structure Kept (s t : State) (lost : Nat) : Prop where
  memory : t.memory = s.memory
  calls : t.calls = s.calls
  profile : t.profile = s.profile
  counter : t.counter = s.counter + 1
  stack : t.stack = s.stack.drop lost

/-- The state in which an instruction fails its checks. -/
theorem kept_taking (s : State) (n : Nat) : Kept s (s.advanced.taking n) n :=
  ⟨rfl, rfl, rfl, rfl, rfl⟩

/-- An effect that fails changes the channel of its opcode and no other, and the data stack keeps
all its values. -/
theorem kept_of_effect (he : (decision p s.advanced i).verdict = .ok e)
    (h : (s.advanced.taking (decision p s.advanced i).taken).perform e = .fault cause t) :
    Kept s t 0 ∧ i.opcode.stackOperands = 0 ∧ (∃ reason, cause = .channel reason) ∧
      (i.opcode = .read ∧ t.output = s.output ∧ t.diagnostics = s.diagnostics ∨
       i.opcode = .write ∧ t.input = s.input ∧ t.diagnostics = s.diagnostics ∨
       (i.opcode = .debugPrint ∨ i.opcode = .breakpoint) ∧
         t.input = s.input ∧ t.output = s.output) := by
  have hperforms := decision_performs he
  rcases State.perform_eq_fault h with
    ⟨v, ty, reason, input, rfl, rfl, rfl⟩ | ⟨text, reason, output, rfl, rfl, rfl⟩ |
    ⟨text, reason, diagnostics, rfl, rfl, rfl⟩
  · have hop := Opcode.eq_read_of_operation (Operation.eq_read_of_performs hperforms)
    obtain ⟨hzero, hnone⟩ := taken_eq_zero_of_channel (p := p) (s := s.advanced) (.inl hop)
    rw [hzero]
    exact ⟨⟨rfl, rfl, rfl, rfl, rfl⟩, hnone, ⟨reason, rfl⟩, .inl ⟨hop, rfl, rfl⟩⟩
  · have hop := Opcode.eq_write_of_operation (Operation.eq_write_of_performs hperforms)
    obtain ⟨hzero, hnone⟩ := taken_eq_zero_of_channel (p := p) (s := s.advanced) (.inr (.inl hop))
    rw [hzero]
    exact ⟨⟨rfl, rfl, rfl, rfl, rfl⟩, hnone, ⟨reason, rfl⟩, .inr (.inl ⟨hop, rfl, rfl⟩)⟩
  · have hop : i.opcode = .debugPrint ∨ i.opcode = .breakpoint :=
      (Operation.eq_debugging_of_performs hperforms).imp Opcode.eq_debugPrint_of_operation
        Opcode.eq_breakpoint_of_operation
    obtain ⟨hzero, hnone⟩ := taken_eq_zero_of_channel (p := p) (s := s.advanced) (.inr (.inr hop))
    rw [hzero]
    exact ⟨⟨rfl, rfl, rfl, rfl, rfl⟩, hnone, ⟨reason, rfl⟩, .inr (.inr ⟨hop, rfl, rfl⟩)⟩

/-- **Failing is atomic.** A step that fails, in any program and any state, leaves every frame, the
places to come back to and the profile as they were, and its counter is one past the instruction.
The data stack is as it was, except that a stack form which found all its operands has lost exactly
these. The input differs only if reading failed, the output only if writing failed, and the
diagnostics only if writing to them failed. -/
theorem step?_fault_unchanged (h : step? p s = some (.fault cause t)) :
    ∃ i, p.instructions[s.counter]? = some i ∧
      t.memory = s.memory ∧ t.calls = s.calls ∧ t.profile = s.profile ∧
      t.counter = s.counter + 1 ∧
      (i.opcode.stackOperands ≤ s.stack.length →
        t.stack = s.stack.drop i.opcode.stackOperands) ∧
      (s.stack.length < i.opcode.stackOperands → t.stack = s.stack) ∧
      (i.opcode = .pops ∨ cause = .dataStackUnderflow → t.stack = s.stack) ∧
      (t.input ≠ s.input → i.opcode = .read ∧ ∃ reason, cause = .channel reason) ∧
      (t.output ≠ s.output → i.opcode = .write ∧ ∃ reason, cause = .channel reason) ∧
      (t.diagnostics ≠ s.diagnostics →
        (i.opcode = .debugPrint ∨ i.opcode = .breakpoint) ∧ ∃ reason, cause = .channel reason) := by
  obtain ⟨i, hi, hc⟩ := exists_of_step? h
  refine ⟨i, hi, ?_⟩
  rcases State.carryOut_eq_fault hc with ⟨hv, rfl⟩ | ⟨e, he, hperform⟩
  · -- A check has failed: no channel was used, and the decision tells how many values are gone.
    have hkept := kept_taking s (decision p s.advanced i).taken
    obtain ⟨hall, hfew, hunder⟩ := decision_taken_of_error hv
    refine ⟨hkept.memory, hkept.calls, hkept.profile, hkept.counter, ?_, ?_, ?_,
      fun hne => absurd rfl hne, fun hne => absurd rfl hne, fun hne => absurd rfl hne⟩
    · intro hle
      rw [hkept.stack, hall hle]
    · intro hlt
      rw [hkept.stack, hfew hlt, List.drop_zero]
    · rintro (hpops | hcause)
      · have hzero : i.opcode.stackOperands = 0 := by rw [hpops]; rfl
        rw [hkept.stack, hall (by rw [hzero]; exact Nat.zero_le _), hzero, List.drop_zero]
      · rw [hkept.stack, hunder hcause, List.drop_zero]
  · -- A channel has failed: no value is gone, and the other channels are as they were.
    obtain ⟨hkept, hzero, hreason, hchannel⟩ := kept_of_effect he hperform
    have hstack : t.stack = s.stack := by rw [hkept.stack, List.drop_zero]
    refine ⟨hkept.memory, hkept.calls, hkept.profile, hkept.counter, ?_, fun _ => hstack,
      fun _ => hstack, ?_⟩
    · intro _
      rw [hzero, List.drop_zero, hstack]
    · rcases hchannel with ⟨hop, hout, hdiag⟩ | ⟨hop, hin, hdiag⟩ | ⟨hop, hin, hout⟩
      · exact ⟨fun _ => ⟨hop, hreason⟩, fun hne => absurd hout hne, fun hne => absurd hdiag hne⟩
      · exact ⟨fun hne => absurd hin hne, fun _ => ⟨hop, hreason⟩, fun hne => absurd hdiag hne⟩
      · exact ⟨fun hne => absurd hin hne, fun hne => absurd hout hne, fun _ => ⟨hop, hreason⟩⟩

/-- A program that adds the two values on the top of the data stack. -/
def addingProgram : Program :=
  ⟨#[{ opcode := .adds, args := [] }], .empty⟩

/-- A state with a truth value on an integer on a nil. -/
def mixedState : State :=
  { State.initial { rest := [] } {} {} with stack := [.bool true, .int 1, .nil] }

/-- Adding a truth value fails, the two operands are gone, and the value below them is not. -/
theorem step?_fault_unchanged_adding :
    ∃ t, step? addingProgram mixedState = some (.fault .typeMismatch t) ∧
      t.stack = [.nil] ∧ t.memory = mixedState.memory ∧ t.counter = 1 := by
  have hstep : step? addingProgram mixedState
      = some (.fault .typeMismatch (mixedState.advanced.taking 2)) := rfl
  obtain ⟨i, hi, hmemory, -, -, hcounter, hstack, -⟩ := step?_fault_unchanged hstep
  cases hi
  exact ⟨_, hstep, hstack (by decide), hmemory, hcounter⟩

end Machine

end FrameCode
