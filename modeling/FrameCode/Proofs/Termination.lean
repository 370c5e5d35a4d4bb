import FrameCode.Proofs.Landings
import Mathlib.Tactic.Ring

/-!
# Programs without jumps backwards end

A program is **forward** if each of its jumps and calls names a label that lies behind it, or one
that is not defined. Its runs end on every input, although the counter of a forward program does go
back: a return leads to the place behind a call, and from there the same instructions are run again.

The proof counts the steps that a run can still take. From a place on it is one for the instruction
there and, in the worst case, twice what there is from the next place on: a call may have everything
behind it run, and run once more after the return. With `n` places to go this makes `2 ^ n - 1`
steps (`stepsFrom`). A run has those of its counter ahead of it and, after them, those of each place
that it has to come back to (`stepsLeft`). Every step lowers the sum (`stepsLeft_lt_of_step?`):

* going on, and jumping, lowers what is ahead of the counter;
* calling splits what is ahead into two parts that are at most half as large;
* coming back drops what was ahead of the counter, and that was one step at least.

So nothing has to be known about the order of the places on the call stack.
-/

namespace FrameCode

/-! ## Forward programs -/

namespace Program

/-- The opcodes that send the counter to the label in their first operand. -/
def transfers : List Opcode :=
  [.jump, .jumpIfEq, .jumpIfNeq, .jumpIfEqs, .jumpIfNeqs, .call]

/-- The place that the label in the first operand of an instruction stands for, if it is defined. -/
def labelled? (p : Program) (i : Instruction) : Option Nat :=
  match i.args[0]? with
  | some (Operand.label name) => p.labels.resolve? name
  | _ => none

/-- Every jump and every call names a label that is not defined or lies behind the instruction. -/
def Forward (p : Program) : Prop :=
  ∀ place < p.size, ∀ i ∈ p.instructions[place]?, i.opcode ∈ transfers →
    ∀ label ∈ p.labelled? i, place < label

instance (p : Program) : Decidable p.Forward :=
  inferInstanceAs (Decidable (∀ place < p.size, ∀ i ∈ p.instructions[place]?,
    i.opcode ∈ transfers → ∀ label ∈ p.labelled? i, place < label))

end Program

namespace Opcode

theorem mem_transfers_of_jumpIf {op : Opcode} {whenEqual : Bool}
    (h : op.operation = .jumpIf whenEqual) : op ∈ Program.transfers := by
  cases op with
  | jumpIfEq | jumpIfNeq => decide
  | _ => cases h

theorem mem_transfers_of_stackJumpIf {op : Opcode} {whenEqual : Bool}
    (h : op.operation = .stackJumpIf whenEqual) : op ∈ Program.transfers := by
  cases op with
  | jumpIfEqs | jumpIfNeqs => decide
  | _ => cases h

end Opcode

namespace Machine

variable {p : Program} {s t : State} {i : Instruction} {measure : State → Nat} {n : Nat}

/-! ## Runs with a measure -/

/-- Steps that lower a measure are no more than what they lower it by. -/
theorem Steps.add_measure_le
    (hmeasure : ∀ s t, step? p s = some (.next t) → measure t < measure s)
    (h : Steps p n s t) : n + measure t ≤ measure s := by
  induction h with
  | refl s => omega
  | cons hstep _ ih =>
    have hlt := hmeasure _ _ hstep
    omega

/-- A run whose steps all lower a measure stops. The induction is on the measure of the state that
the run has come to. -/
theorem exists_stops_of_measure
    (hmeasure : ∀ s t, step? p s = some (.next t) → measure t < measure s) (s : State) :
    ∃ n t f, Steps p n s t ∧ Stops p t f := by
  induction hm : measure s using Nat.strong_induction_on generalizing s with
  | _ m ih =>
    rcases hstep : step? p s with _ | o
    · exact ⟨0, s, _, .refl s, .left hstep⟩
    · cases o with
      | next t =>
        have hlt : measure t < m := by
          rw [← hm]
          exact hmeasure s t hstep
        obtain ⟨n, u, f, hsteps, hstops⟩ := ih (measure t) hlt t rfl
        exact ⟨n + 1, u, f, .cons hstep hsteps, hstops⟩
      | exit code t => exact ⟨0, s, _, .refl s, .exit hstep⟩
      | fault cause t => exact ⟨0, s, _, .refl s, .fault hstep⟩

theorem exists_ends_of_measure
    (hmeasure : ∀ s t, step? p s = some (.next t) → measure t < measure s) (s : State) :
    ∃ f, Ends p s f := by
  obtain ⟨n, t, f, hsteps, hstops⟩ := exists_stops_of_measure hmeasure s
  exact ⟨f.flushed, ends_iff.mpr ⟨n, t, f, hsteps, hstops, rfl⟩⟩

/-! ## The steps ahead of a place -/

/-- The most steps that a run can take from a place on before it comes back or ends, in a program of
the given size. -/
def stepsFrom (size place : Nat) : Nat :=
  2 ^ (size - place) - 1

/-- One step at the place, and what is behind it twice. -/
theorem stepsFrom_eq {size place : Nat} (h : place < size) :
    stepsFrom size place = 2 * stepsFrom size (place + 1) + 1 := by
  have hsplit : size - place = size - (place + 1) + 1 := by omega
  have hpos : 0 < 2 ^ (size - (place + 1)) := Nat.pow_pos (by decide)
  unfold stepsFrom
  rw [hsplit, pow_succ]
  omega

theorem stepsFrom_anti {size place later : Nat} (h : place ≤ later) :
    stepsFrom size later ≤ stepsFrom size place := by
  have hpow : 2 ^ (size - later) ≤ 2 ^ (size - place) :=
    Nat.pow_le_pow_right (by decide) (by omega)
  unfold stepsFrom
  omega

/-- The most steps that a run of a forward program can still take: those ahead of the counter, and
those ahead of each place to come back to. -/
def stepsLeft (p : Program) (s : State) : Nat :=
  stepsFrom p.size s.counter + (s.calls.map (stepsFrom p.size)).sum

/-! ## One step of a forward program -/

theorem labelled?_of_leads {place : Nat} (h : Leads p i place) : p.labelled? i = some place := by
  obtain ⟨name, harg, hplace⟩ := h
  unfold Program.labelled?
  rw [harg]
  exact hplace

/-- Only the opcodes in the list redirect the counter. -/
theorem Redirects.mem_transfers {m : Memory} {stack : List Value} (h : Redirects m stack i) :
    i.opcode ∈ Program.transfers := by
  cases h with
  | jump hop =>
    rw [hop]
    decide
  | call hop =>
    rw [hop]
    decide
  | jumpIf hop => exact Opcode.mem_transfers_of_jumpIf hop
  | stackJumpIf hop => exact Opcode.mem_transfers_of_stackJumpIf hop

/-- Every instruction of a forward program but a return takes the counter to a later place. -/
theorem counter_lt_of_step? (hp : p.Forward) (hi : p.instructions[s.counter]? = some i)
    (hret : i.opcode ≠ .ret) (h : step? p s = some (.next t)) : s.counter < t.counter := by
  obtain ⟨hlands, hon⟩ := counter_of_step? hi h
  by_cases hr : Redirects s.memory s.stack i
  · have hlabel := labelled?_of_leads (hlands hr)
    exact hp _ (lt_size_of_instruction hi) i hi hr.mem_transfers _ hlabel
  · have hcounter := hon hr hret
    omega

/-- A return takes the counter to the place on top of the call stack. -/
theorem calls_of_ret (hi : p.instructions[s.counter]? = some i) (hop : i.opcode = .ret)
    (h : step? p s = some (.next t)) : s.calls = t.counter :: t.calls := by
  rw [step?_of_instruction hi, Option.some.injEq] at h
  obtain ⟨e, u, he, hu, rfl⟩ := State.carryOut_eq_next h
  have hperforms := decision_performs he
  unfold decision at he
  rw [hop] at hperforms he
  cases e with
  | comeBack place =>
    cases hu
    exact calls_of_comeBack (s := s.advanced) he
  | _ => exact hperforms.elim

/-- **Every step counts.** A step of a forward program lowers the number of steps that its run can
still take. -/
theorem stepsLeft_lt_of_step? (hp : p.Forward) (h : step? p s = some (.next t)) :
    stepsLeft p t < stepsLeft p s := by
  obtain ⟨i, hi, -⟩ := exists_of_step? h
  have hhere := stepsFrom_eq (lt_size_of_instruction hi)
  unfold stepsLeft
  by_cases hret : i.opcode = .ret
  · -- The place on top of the call stack becomes the counter, and the old counter is gone.
    rw [calls_of_ret hi hret h, List.map_cons, List.sum_cons]
    omega
  · have hlater : s.counter + 1 ≤ t.counter := counter_lt_of_step? hp hi hret h
    have hahead : stepsFrom p.size t.counter ≤ stepsFrom p.size (s.counter + 1) :=
      stepsFrom_anti hlater
    rcases moves_of_step? hi h with ⟨-, hcalls⟩ | ⟨-, hcalls⟩ | ⟨-, -, hcalls⟩ | ⟨hop, -⟩
    · rw [hcalls]
      omega
    · rw [hcalls]
      omega
    · -- Both the place that is called and the one to come back to lie behind the call.
      rw [hcalls, List.map_cons, List.sum_cons]
      omega
    · exact absurd hop hret

/-! ## Whole runs -/

theorem stepsLeft_initial (p : Program) (input : Input) (output diagnostics : Output) :
    stepsLeft p (.initial input output diagnostics) = 2 ^ p.size - 1 := by
  simp [stepsLeft, stepsFrom, State.initial]

/-- **Forward programs end.** If every jump and every call of a program names a label that is not
defined or lies behind the instruction, then its run ends on every input and with every output,
whatever its returns do, and it takes fewer than `2 ^ n` steps for `n` instructions. -/
theorem forward_ends (hp : p.Forward) (input : Input) (output diagnostics : Output) :
    (∃ f, Ends p (.initial input output diagnostics) f) ∧
      ∀ n t, Steps p n (.initial input output diagnostics) t → n < 2 ^ p.size := by
  have hmeasure : ∀ s t, step? p s = some (.next t) → stepsLeft p t < stepsLeft p s :=
    fun s t h => stepsLeft_lt_of_step? hp h
  refine ⟨exists_ends_of_measure hmeasure _, ?_⟩
  intro n t hsteps
  have hle := hsteps.add_measure_le hmeasure
  have hpos : 0 < 2 ^ p.size := Nat.pow_pos (by decide)
  rw [stepsLeft_initial] at hle
  omega

/-- Two calls of a function that lies behind them, and a jump to a label that is not defined, which
the jump before it passes over. -/
def forwardCalls : List Instruction :=
  [{ opcode := .call, args := [.label "f"] }, { opcode := .call, args := [.label "f"] },
    { opcode := .jump, args := [.label "end"] }, { opcode := .jump, args := [.label "nowhere"] },
    { opcode := .label, args := [.label "f"] }, { opcode := .ret, args := [] },
    { opcode := .label, args := [.label "end"] }]

/-- The program with the instructions of `forwardCalls`. -/
def forwardProgram : Program :=
  ⟨(Program.number forwardCalls).toArray, ⟨[("end", 6), ("f", 4)]⟩⟩

/-- The program is forward, the return in its second last place leads back twice, and the run ends
without error. -/
theorem forward_ends_calls :
    Program.ofInstructions forwardCalls = .ok forwardProgram ∧ forwardProgram.Forward ∧
      (∃ s t, Steps forwardProgram 2 (.initial { rest := [] } {} {}) s ∧ s.counter = 5 ∧
        step? forwardProgram s = some (.next t) ∧ t.counter = 1) ∧
      ∃ f, Ends forwardProgram (.initial { rest := [] } {} {}) f ∧ f.result = .ok 0 := by
  have hp : forwardProgram.Forward := by decide
  obtain ⟨⟨f, hends⟩, -⟩ := forward_ends hp { rest := [] } {} {}
  obtain ⟨g, hrun, hresult⟩ : ∃ g, Ends forwardProgram (.initial { rest := [] } {} {}) g ∧
      g.result = .ok 0 := ⟨_, ⟨10, rfl⟩, rfl⟩
  refine ⟨rfl, hp, ⟨_, _, .cons rfl (.cons rfl (.refl _)), rfl, rfl, rfl⟩, f, hends, ?_⟩
  rw [hends.unique hrun, hresult]

end Machine

end FrameCode
