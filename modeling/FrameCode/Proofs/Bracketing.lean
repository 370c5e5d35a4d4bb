import FrameCode.Proofs.Histories
import FrameCode.Proofs.Landings
import Mathlib.Data.List.DropRight

/-!
# Calls and returns are bracketed

A call puts the place behind it on the call stack, and what comes afterwards may call again, jump
anywhere and come back any number of times. As long as the stack is deeper than it was before the
call, nothing at or below that place is touched: a step adds one place on top, or takes the top one
off, or leaves the stack alone (`moves_of_step?`). The first time that the stack is as deep as it
was, a return has just taken the place of the call, and has gone there.

The proof follows one fact through the run. `r :: c <:+ s.calls` says that the stack of `s` ends
with the place `r` on top of `c`. A step keeps this, or it is the return to `r`
(`suffix_or_return`).
-/

namespace FrameCode.Machine

variable {p : Program} {s t : State} {i : Instruction} {o : Outcome} {c : List Nat} {r n : Nat}

/-! ## One step -/

/-- A call puts the place behind it on top of the call stack. -/
theorem calls_of_call (hi : p.instructions[s.counter]? = some i) (hop : i.opcode = .call)
    (h : step? p s = some (.next t)) : t.calls = (s.counter + 1) :: s.calls := by
  rw [step?_of_instruction hi, Option.some.injEq] at h
  obtain ⟨e, u, he, hu, rfl⟩ := State.carryOut_eq_next h
  have hperforms := decision_performs he
  rw [hop] at hperforms
  cases e with
  | call place =>
    cases hu
    rfl
  | _ => exact hperforms.elim

/-- A step keeps a place on the call stack and what lies below it, or it comes back to this place
and leaves what lies below. -/
theorem suffix_or_return (hcalls : r :: c <:+ s.calls) (h : step? p s = some o) :
    r :: c <:+ o.state.calls ∨
      ∃ i t, p.instructions[s.counter]? = some i ∧ i.opcode = .ret ∧ o = .next t ∧
        t.calls = c ∧ t.counter = r := by
  cases o with
  | exit code t =>
    left
    obtain ⟨i, n, -, -, -, -, -, -, hsame⟩ := exit_of_step? h
    rw [← hsame] at hcalls
    exact hcalls
  | fault cause t =>
    left
    obtain ⟨lost, hkept⟩ := kept_of_fault h
    rw [← hkept.calls] at hcalls
    exact hcalls
  | next t =>
    obtain ⟨i, hi, -⟩ := exists_of_step? h
    rcases moves_of_step? hi h with ⟨-, hsame⟩ | ⟨-, hsame⟩ | ⟨-, -, hpushed⟩ | ⟨hop, hpopped⟩
    · left
      rw [← hsame] at hcalls
      exact hcalls
    · left
      rw [← hsame] at hcalls
      exact hcalls
    · left
      have hbelow : s.calls <:+ t.calls := by
        rw [hpushed]
        exact List.suffix_cons _ _
      exact hcalls.trans hbelow
    · -- The place that was taken off is above `r`, or it is `r` itself.
      rw [hpopped] at hcalls
      rcases List.suffix_cons_iff.mp hcalls with heq | hsuffix
      · right
        obtain ⟨hr, hc⟩ := List.cons.inj heq
        exact ⟨i, t, hi, hop, rfl, hc.symm, hr.symm⟩
      · left
        exact hsuffix

/-! ## The run after a call -/

/-- A place on the call stack stays there, with what lies below it, until the stack is as deep as
what lies below. -/
theorem suffix_stateAfter (hcalls : r :: c <:+ s.calls)
    (hdepth : ∀ k ≤ n, (stateAfter p k s).calls.length ≠ c.length) :
    r :: c <:+ (stateAfter p n s).calls := by
  induction n with
  | zero => exact hcalls
  | succ n ih =>
    have hbefore := ih fun k hk => hdepth k (by omega)
    rcases history_succ p n s with ⟨hsame, -⟩ | ⟨o, hstep, hnext, -⟩
    · rw [hsame]
      exact hbefore
    · rcases suffix_or_return hbefore hstep with hkept | ⟨i, t, -, -, rfl, hc, -⟩
      · rw [hnext]
        exact hkept
      · have hback : (stateAfter p (n + 1) s).calls = c := by
          rw [hnext]
          exact hc
        exact absurd (by rw [hback]) (hdepth (n + 1) (Nat.le_refl _))

/-- The first time that the call stack is as deep as below a place, a return has come back to this
place and has left what lies below. -/
theorem return_of_depth (hcalls : r :: c <:+ s.calls)
    (hfirst : ∀ k < n, (stateAfter p k s).calls.length ≠ c.length)
    (hdepth : (stateAfter p n s).calls.length = c.length) :
    ∃ k i, n = k + 1 ∧ p.instructions[(stateAfter p k s).counter]? = some i ∧ i.opcode = .ret ∧
      step? p (stateAfter p k s) = some (.next (stateAfter p n s)) ∧
      (stateAfter p n s).calls = c ∧ (stateAfter p n s).counter = r := by
  cases n with
  | zero =>
    -- At the start the stack is deeper by one at least.
    have hle := hcalls.length_le
    rw [List.length_cons] at hle
    rw [stateAfter] at hdepth
    omega
  | succ n =>
    have hbefore := suffix_stateAfter (n := n) hcalls fun k hk => hfirst k (by omega)
    rcases history_succ p n s with ⟨hsame, -⟩ | ⟨o, hstep, hnext, -⟩
    · rw [hsame] at hdepth
      exact absurd hdepth (hfirst n (by omega))
    · rcases suffix_or_return hbefore hstep with hkept | ⟨i, t, hi, hop, rfl, hc, hr⟩
      · have hle := hkept.length_le
        rw [List.length_cons, ← hnext] at hle
        omega
      · rw [hnext]
        exact ⟨n, i, rfl, hi, hop, hstep, hc, hr⟩

/-- **Calls and returns are bracketed.** Let a call be carried out in any state of any run. The
first later state in which the call stack is as deep as before the call has the same call stack, its
counter is right behind the call, and the instruction before it was a return. While the stack is
deeper, its bottom is the place behind the call on top of the stack before. -/
theorem call_bracketed (hi : p.instructions[s.counter]? = some i) (hop : i.opcode = .call)
    (hcall : step? p s = some (.next t)) (n : Nat) :
    ((∀ k < n, (stateAfter p k t).calls.length ≠ s.calls.length) →
      (stateAfter p n t).calls.length = s.calls.length →
      (stateAfter p n t).calls = s.calls ∧ (stateAfter p n t).counter = s.counter + 1 ∧
      ∃ k j, n = k + 1 ∧ p.instructions[(stateAfter p k t).counter]? = some j ∧
        j.opcode = .ret ∧ step? p (stateAfter p k t) = some (.next (stateAfter p n t))) ∧
    ((∀ k ≤ n, s.calls.length < (stateAfter p k t).calls.length) →
      (stateAfter p n t).calls.rtake (s.calls.length + 1) = (s.counter + 1) :: s.calls) := by
  have hcalls : (s.counter + 1) :: s.calls <:+ t.calls := by
    simp [calls_of_call hi hop hcall]
  refine ⟨?_, ?_⟩
  · intro hfirst hdepth
    obtain ⟨k, j, hk, hj, hret, hstep, hback, hcounter⟩ := return_of_depth hcalls hfirst hdepth
    exact ⟨hback, hcounter, k, j, hk, hj, hret, hstep⟩
  · intro hdeeper
    have hsuffix := suffix_stateAfter hcalls fun k hk => Nat.ne_of_gt (hdeeper k hk)
    rw [List.rtake, ← List.length_cons]
    exact (List.suffix_iff_eq_drop.mp hsuffix).symm

/-- A call in the last place of its program, of a function that calls another one. -/
def nestedCalls : List Instruction :=
  [{ opcode := .jump, args := [.label "main"] }, { opcode := .label, args := [.label "f"] },
    { opcode := .call, args := [.label "g"] }, { opcode := .ret, args := [] },
    { opcode := .label, args := [.label "g"] }, { opcode := .ret, args := [] },
    { opcode := .label, args := [.label "main"] }, { opcode := .call, args := [.label "f"] }]

/-- The program with the instructions of `nestedCalls`. -/
def nestedProgram : Program :=
  ⟨(Program.number nestedCalls).toArray, ⟨[("main", 6), ("g", 4), ("f", 1)]⟩⟩

/-- The state in which the outer call is carried out. -/
def nestedState : State :=
  stateAfter nestedProgram 2 (.initial { rest := [] } {} {})

/-- After the outer call the stack is empty again for the first time when five instructions have
been completed, and the counter is one past the last place of the program. In between the inner call
lies on top of the outer one. -/
theorem call_bracketed_nested :
    ∃ t, Program.ofInstructions nestedCalls = .ok nestedProgram ∧
      step? nestedProgram nestedState = some (.next t) ∧
      (stateAfter nestedProgram 3 t).calls.rtake 1 = [8] ∧
      (stateAfter nestedProgram 3 t).calls = [3, 8] ∧
      (stateAfter nestedProgram 5 t).calls = [] ∧
      (stateAfter nestedProgram 5 t).counter = 8 := by
  have hbracketed := call_bracketed (p := nestedProgram) (s := nestedState) rfl rfl rfl
  obtain ⟨hback, hcounter, -⟩ := (hbracketed 5).1 (by decide) rfl
  have hdeeper := (hbracketed 3).2 (by decide)
  exact ⟨_, rfl, rfl, hdeeper, rfl, hback, hcounter⟩

end FrameCode.Machine
