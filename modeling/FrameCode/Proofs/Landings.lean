import FrameCode.Proofs.Control
import FrameCode.Proofs.Faults

/-!
# Where control lands

`Placed` ties the counter and the call stack of a machine to its program. This file adds what one
step does on top of it. A jump or a call that is taken lands on the label that it names; which ones
are taken is told by the state before the step (`Redirects`), and every other instruction but a
return goes on to the next place. An instruction that fails has not moved the counter away, so the
error stands at the instruction that was fetched. A run without error has gone past its last
instruction or met an exit instruction, whose operand is the exit code.

Everything here is about one step; the invariant carries it to every state of a run.
-/

namespace FrameCode

namespace Operation

open FrameCode.Machine

theorem eq_exit_of_performs {o : Operation} {code : Nat} (h : o.Performs (.exit code)) :
    o = .exit := by
  cases o with
  | exit => rfl
  | _ => exact h.elim

theorem eq_jump_of_performs {o : Operation} {place : Nat} (h : o.Performs (.jump place)) :
    o = .jump ∨ (∃ whenEqual, o = .jumpIf whenEqual) ∨ ∃ whenEqual, o = .stackJumpIf whenEqual := by
  cases o with
  | jump => exact .inl rfl
  | jumpIf whenEqual => exact .inr (.inl ⟨whenEqual, rfl⟩)
  | stackJumpIf whenEqual => exact .inr (.inr ⟨whenEqual, rfl⟩)
  | _ => exact h.elim

end Operation

namespace Opcode

theorem eq_exit_of_operation {op : Opcode} (h : op.operation = .exit) : op = .exit := by
  cases op with
  | exit => rfl
  | _ => cases h

theorem eq_jump_of_operation {op : Opcode} (h : op.operation = .jump) : op = .jump := by
  cases op with
  | jump => rfl
  | _ => cases h

end Opcode

namespace Machine

open FrameCode.Checks

variable {p : Program} {s t : State} {i : Instruction} {e : Effect} {f : Finish} {cause : Cause}
  {code place : Nat}

/-! ## Jumps that are taken -/

/-- An instruction sends the counter to the label in its first operand: a jump and a call always do,
and a conditional jump does if its two values compare as it asks. -/
inductive Redirects (m : Memory) (stack : List Value) (i : Instruction) : Prop
  | jump (hop : i.opcode = .jump)
  | call (hop : i.opcode = .call)
  | jumpIf {whenEqual : Bool} {a b : Value} (hop : i.opcode.operation = .jumpIf whenEqual)
    (ha : valueArgument m i 1 = .ok a) (hb : valueArgument m i 2 = .ok b)
    (h : Operator.equals a b = .ok whenEqual)
  | stackJumpIf {whenEqual : Bool} {left right : Value} {rest : List Value}
    (hop : i.opcode.operation = .stackJumpIf whenEqual) (hstack : stack = right :: left :: rest)
    (h : Operator.equals left right = .ok whenEqual)

theorem jumpEffect_eq_jump {n : Nat} {taken : Bool} (h : jumpEffect n taken = .jump place) :
    taken = true := by
  cases taken with
  | true => rfl
  | false => cases h

/-- A decision to jump is made by an instruction that redirects. -/
theorem redirects_of_jump (h : (decision p s i).verdict = .ok (.jump place)) :
    Redirects s.memory s.stack i := by
  unfold decision at h
  rcases Operation.eq_jump_of_performs (decisionAs_performs h) with
    ho | ⟨whenEqual, ho⟩ | ⟨whenEqual, ho⟩
  · exact .jump (Opcode.eq_jump_of_operation ho)
  · rw [ho] at h
    simp only [decisionAs, Decision.of, bind_eq_ok, pure_eq, Except.ok.injEq] at h
    obtain ⟨a, ha, b, hb, n, -, equal, hequal, h⟩ := h
    have heq : equal = whenEqual := eq_of_beq (jumpEffect_eq_jump h)
    rw [heq] at hequal
    exact .jumpIf ho ha hb hequal
  · rw [ho] at h
    simp only [decisionAs] at h
    split at h
    · rename_i right left rest hstack
      simp only [bind_eq_ok, pure_eq, Except.ok.injEq] at h
      obtain ⟨n, -, equal, hequal, h⟩ := h
      have heq : equal = whenEqual := eq_of_beq (jumpEffect_eq_jump h)
      rw [heq] at hequal
      exact .stackJumpIf ho hstack hequal
    · cases h

/-- An instruction that redirects decides to jump or to call, if its checks succeed. -/
theorem effect_of_redirects (h : (decision p s i).verdict = .ok e)
    (hr : Redirects s.memory s.stack i) : ∃ place, e = .jump place ∨ e = .call place := by
  unfold decision at h
  cases hr with
  | jump hop =>
    rw [hop] at h
    simp only [Opcode.operation, decisionAs, Decision.of, bind_eq_ok, pure_eq,
      Except.ok.injEq] at h
    obtain ⟨n, -, rfl⟩ := h
    exact ⟨n, .inl rfl⟩
  | call hop =>
    rw [hop] at h
    simp only [Opcode.operation, decisionAs, Decision.of, bind_eq_ok, pure_eq,
      Except.ok.injEq] at h
    obtain ⟨n, -, rfl⟩ := h
    exact ⟨n, .inr rfl⟩
  | jumpIf hop ha hb hequal =>
    rw [hop] at h
    -- The decision compares the same two values, so the label is all that is left to check.
    simp only [decisionAs, Decision.of, ha, hb, hequal, ok_bind, bind_eq_ok, pure_eq,
      Except.ok.injEq, beq_self_eq_true] at h
    obtain ⟨n, -, rfl⟩ := h
    exact ⟨n, .inl rfl⟩
  | stackJumpIf hop hstack hequal =>
    rw [hop] at h
    simp only [decisionAs, hstack, hequal, ok_bind, bind_eq_ok, pure_eq, Except.ok.injEq,
      beq_self_eq_true] at h
    obtain ⟨n, -, rfl⟩ := h
    exact ⟨n, .inl rfl⟩

/-- An instruction that redirects leads to where the counter is after it, and one that does not, and
is no return, leaves the counter at the next place. -/
theorem counter_of_step? (hi : p.instructions[s.counter]? = some i)
    (h : step? p s = some (.next t)) :
    (Redirects s.memory s.stack i → Leads p i t.counter) ∧
      (¬Redirects s.memory s.stack i → i.opcode ≠ .ret → t.counter = s.counter + 1) := by
  rw [step?_of_instruction hi, Option.some.injEq] at h
  obtain ⟨e, u, he, hu, rfl⟩ := State.carryOut_eq_next h
  refine ⟨?_, ?_⟩
  · intro hr
    obtain ⟨place, rfl | rfl⟩ := effect_of_redirects he hr
    · cases hu
      exact leads_of_jump he
    · cases hu
      exact (call_of_decision he).2
  · intro hr hret
    -- Three effects set the counter, and each belongs to an instruction that is excluded here.
    rcases State.perform_moves hu with ⟨place, rfl | rfl | rfl⟩ | ⟨hcounter, -⟩
    · exact absurd (redirects_of_jump he) hr
    · exact absurd (.call (call_of_decision he).1) hr
    · have hop := Operation.eq_comeBack_of_performs (decision_performs he)
      exact absurd (Opcode.eq_ret_of_operation hop) hret
    · exact hcounter

/-- The labels of a program lead to the label instructions that carry their names. -/
theorem label_of_leads {is : List Instruction} (hp : Program.ofInstructions is = .ok p)
    (h : Leads p i place) :
    ∃ name l, i.args[0]? = some (.label name) ∧ p.instructions[place]? = some l ∧
      l.label? = some name := by
  obtain ⟨name, harg, hplace⟩ := h
  obtain ⟨l, hl, hlabel⟩ := (Program.resolve?_ofInstructions hp).mp hplace
  refine ⟨name, { l with index := place }, harg, ?_, hlabel⟩
  rw [Program.getElem?_ofInstructions hp, hl, Option.map_some]

/-! ## Instructions that end a run -/

/-- An instruction that fails has moved the counter past itself and nowhere else. -/
theorem kept_of_fault (h : step? p s = some (.fault cause t)) : ∃ lost, Kept s t lost := by
  obtain ⟨i, -, hc⟩ := exists_of_step? h
  rcases State.carryOut_eq_fault hc with ⟨-, rfl⟩ | ⟨e, he, hperform⟩
  · exact ⟨_, kept_taking s _⟩
  · exact ⟨0, (kept_of_effect he hperform).1⟩

/-- The values that stand for an exit code. -/
theorem exitCode_eq_ok {v : Value} (h : exitCode v = .ok code) :
    ∃ n : Int64, v = .int n ∧ n.toInt = code ∧ code ≤ 49 := by
  unfold exitCode at h
  split at h
  · rename_i n
    split at h
    · rename_i hrange
      cases h
      refine ⟨n, rfl, ?_, ?_⟩
      · omega
      · omega
    · cases h
  · cases h

/-- An instruction that exits is an exit instruction, and its operand is the exit code. The counter
has moved past it, and nobody has come back. -/
theorem exit_of_step? (h : step? p s = some (.exit code t)) :
    ∃ i n, p.instructions[s.counter]? = some i ∧ i.opcode = .exit ∧
      valueArgument s.memory i 0 = .ok (.int n) ∧ n.toInt = code ∧ code ≤ 49 ∧
      t.counter = s.counter + 1 ∧ t.calls = s.calls := by
  obtain ⟨i, hi, hc⟩ := exists_of_step? h
  obtain ⟨hverdict, rfl⟩ := State.carryOut_eq_exit hc
  have hop := Operation.eq_exit_of_performs (decision_performs hverdict)
  unfold decision at hverdict
  rw [hop] at hverdict
  simp only [decisionAs, Decision.of, bind_eq_ok, pure_eq, Except.ok.injEq,
    Effect.exit.injEq] at hverdict
  obtain ⟨v, hv, c, hcode, rfl⟩ := hverdict
  obtain ⟨n, rfl, hn, hle⟩ := exitCode_eq_ok hcode
  exact ⟨i, n, hi, Opcode.eq_exit_of_operation hop, hv, hn, hle, rfl, rfl⟩

/-- A state whose counter is one past a placed one, and with the same places to come back to. -/
theorem Placed.advance (hs : Placed p s) (hi : p.instructions[s.counter]? = some i)
    (hcounter : t.counter = s.counter + 1) (hcalls : t.calls = s.calls) : Placed p t := by
  have hlt : s.counter < p.size := lt_size_of_instruction hi
  refine ⟨?_, ?_⟩
  · omega
  · rw [hcalls]
    exact hs.calls

/-- Whatever ends a run, the counter stays with the program. -/
theorem placed_of_stops (hs : Placed p s) (h : Stops p s f) : Placed p f.state := by
  cases h with
  | left => exact hs
  | exit h =>
    obtain ⟨i, n, hi, -, -, -, -, hcounter, hcalls⟩ := exit_of_step? h
    exact hs.advance hi hcounter hcalls
  | fault h =>
    obtain ⟨i, hi, -⟩ := exists_of_step? h
    obtain ⟨lost, hkept⟩ := kept_of_fault h
    exact hs.advance hi hkept.counter hkept.calls

/-- The error of a step stands at the instruction that was fetched, which is also the one that the
machine takes to be at work in the state it is left in. -/
theorem place_of_stops {is : List Instruction} (hp : Program.ofInstructions is = .ok p)
    {fault : Fault} (h : Stops p s f) (herror : f.result = .error fault) :
    ∃ i, p.instructions[s.counter]? = some i ∧ fault.place = i.index ∧
      fault.place = f.state.place ∧ fault.place < p.size := by
  cases h with
  | left => cases herror
  | exit => cases herror
  | fault h =>
    cases herror
    obtain ⟨i, hi, -⟩ := exists_of_step? h
    obtain ⟨lost, hkept⟩ := kept_of_fault h
    have hindex : i.index = s.counter := Program.numbered_ofInstructions hp _ _ hi
    refine ⟨i, hi, hindex.symm, ?_, lt_size_of_instruction hi⟩
    unfold State.place
    rw [hkept.counter, Nat.add_sub_cancel]

/-! ## Every run -/

/-- **Control stays with the program and lands on labels.** In every state of a run of a program,
and in the state that the run leaves, the counter is at most one place past the last instruction and
every place to come back to is right behind a call. An instruction that redirects is followed by the
label instruction with the name in its operand, and any other but a return by the next place. The
error of a step stands at the instruction that was fetched. A run without error has left the program
at its end with exit code zero, or has met an exit instruction whose operand is the exit code, from
zero to 49. -/
theorem control_placed {is : List Instruction} (hp : Program.ofInstructions is = .ok p)
    (input : Input) (output diagnostics : Output) :
    (∀ n s, Steps p n (.initial input output diagnostics) s →
      Placed p s ∧
      (∀ i t, p.instructions[s.counter]? = some i → step? p s = some (.next t) →
        (Redirects s.memory s.stack i →
          ∃ name l, i.args[0]? = some (.label name) ∧ p.instructions[t.counter]? = some l ∧
            l.label? = some name) ∧
        (¬Redirects s.memory s.stack i → i.opcode ≠ .ret → t.counter = s.counter + 1)) ∧
      ∀ f fault, Stops p s f → f.result = .error fault →
        ∃ i, p.instructions[s.counter]? = some i ∧ fault.place = i.index ∧
          fault.place = f.state.place ∧ fault.place < p.size) ∧
    ∀ f, Ends p (.initial input output diagnostics) f →
      Placed p f.state ∧
      ∀ code, f.result = .ok code →
        (f.state.counter = p.size ∧ code = 0) ∨
        ∃ n s i v, Steps p n (.initial input output diagnostics) s ∧
          step? p s = some (.exit code f.state) ∧ p.instructions[s.counter]? = some i ∧
          i.opcode = .exit ∧ valueArgument s.memory i 0 = .ok (.int v) ∧ v.toInt = code ∧
          code ≤ 49 := by
  have hplaced : ∀ n s, Steps p n (.initial input output diagnostics) s → Placed p s :=
    fun n s hsteps => placed_of_steps hp (placed_initial p input output diagnostics) hsteps
  refine ⟨?_, ?_⟩
  · intro n s hsteps
    refine ⟨hplaced n s hsteps, ?_, ?_⟩
    · intro i t hi hstep
      obtain ⟨hlands, hon⟩ := counter_of_step? hi hstep
      exact ⟨fun hr => label_of_leads hp (hlands hr), hon⟩
    · intro f fault hstops herror
      exact place_of_stops hp hstops herror
  · intro f hends
    obtain ⟨n, s, g, hsteps, hstops, rfl⟩ := ends_iff.mp hends
    refine ⟨?_, ?_⟩
    · rw [Finish.state_flushed]
      exact placed_of_stops (hplaced n s hsteps) hstops
    · intro code hcode
      rw [Finish.state_flushed]
      -- A failed flush only turns a result into an error, so the stop was without error already.
      cases hstops with
      | left h =>
        cases Finish.result_of_flushed_eq_ok hcode
        exact .inl ⟨counter_of_left (hplaced n s hsteps) h, rfl⟩
      | exit h =>
        cases Finish.result_of_flushed_eq_ok hcode
        obtain ⟨i, v, hi, hop, hv, hvalue, hle, -⟩ := exit_of_step? h
        exact .inr ⟨n, s, i, v, hsteps, h, hi, hop, hv, hvalue, hle⟩
      | fault h => cases Finish.result_of_flushed_eq_ok hcode

/-- A call of a label behind an exit instruction, and a return right after the label. -/
def exitingCall : List Instruction :=
  [{ opcode := .call, args := [.label "f"] }, { opcode := .exit, args := [.const (.int 7)] },
    { opcode := .label, args := [.label "f"] }, { opcode := .ret, args := [] }]

/-- The program with the instructions of `exitingCall`. -/
def exitingProgram : Program :=
  ⟨(Program.number exitingCall).toArray, ⟨[("f", 2)]⟩⟩

/-- The call lands on its label with the place behind it to come back to, and the run ends with the
operand of the exit instruction. -/
theorem control_placed_exitingCall :
    ∃ t f, Program.ofInstructions exitingCall = .ok exitingProgram ∧
      step? exitingProgram (.initial { rest := [] } {} {}) = some (.next t) ∧ t.calls = [1] ∧
      (∃ l, exitingProgram.instructions[t.counter]? = some l ∧ l.label? = some "f") ∧
      Ends exitingProgram (.initial { rest := [] } {} {}) f ∧ f.result = .ok 7 ∧
      ∃ s i, step? exitingProgram s = some (.exit 7 f.state) ∧
        exitingProgram.instructions[s.counter]? = some i ∧ i.opcode = .exit := by
  have hp : Program.ofInstructions exitingCall = .ok exitingProgram := rfl
  obtain ⟨hstates, hend⟩ := control_placed hp { rest := [] } {} {}
  obtain ⟨-, hlands, -⟩ := hstates 0 _ (.refl _)
  obtain ⟨name, l, harg, hl, hname⟩ := (hlands _ _ rfl rfl).1 (.call rfl)
  cases harg
  have hends : Ends exitingProgram (.initial { rest := [] } {} {}) _ := ⟨5, rfl⟩
  rcases (hend _ hends).2 7 rfl with ⟨-, hzero⟩ | ⟨n, s, i, v, -, hstep, hi, hop, -⟩
  · cases hzero
  · exact ⟨_, _, hp, rfl, rfl, ⟨l, hl, hname⟩, hends, rfl, s, i, hstep, hi, hop⟩

end Machine

end FrameCode
