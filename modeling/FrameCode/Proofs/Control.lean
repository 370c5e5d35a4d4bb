import FrameCode.Proofs.Programs
import FrameCode.Proofs.Runs
import FrameCode.Proofs.Steps

/-!
# The flow of control

A step moves the counter in one of four ways: on to the next place, to a label, to a label with the
next place put down on the call stack, or to the place on top of the call stack. `moves_of_step?`
says so once, with the instructions that move it in this way, and an invariant of the counter and
the call stack follows from it by four short cases.

The invariant here is `Placed`: the counter does not leave the program by more than one place, and
every place to come back to is right behind a call. It holds in every state of a run.
-/

namespace FrameCode

/-! ## Operations that move the counter -/

namespace Operation

open FrameCode.Machine

theorem eq_call_of_performs {o : Operation} {place : Nat} (h : o.Performs (.call place)) :
    o = .call := by
  cases o with
  | call => rfl
  | _ => exact h.elim

theorem eq_comeBack_of_performs {o : Operation} {place : Nat} (h : o.Performs (.comeBack place)) :
    o = .comeBack := by
  cases o with
  | comeBack => rfl
  | _ => exact h.elim

end Operation

namespace Opcode

theorem eq_call_of_operation {op : Opcode} (h : op.operation = .call) : op = .call := by
  cases op with
  | call => rfl
  | _ => cases h

theorem eq_ret_of_operation {op : Opcode} (h : op.operation = .comeBack) : op = .ret := by
  cases op with
  | ret => rfl
  | _ => cases h

end Opcode

namespace Machine

open FrameCode.Checks

variable {p : Program} {s t : State} {i : Instruction} {o : Operation} {place : Nat}

/-- The first operand of an instruction is a label, and it leads to a place. -/
def Leads (p : Program) (i : Instruction) (place : Nat) : Prop :=
  ∃ name, i.args[0]? = some (.label name) ∧ p.labels.resolve? name = some place

theorem leads_of_target (h : target p i = .ok place) : Leads p i place := by
  unfold target labelArgument argument at h
  rw [bind_eq_ok] at h
  obtain ⟨name, hname, h⟩ := h
  rw [bind_eq_ok] at hname
  obtain ⟨a, ha, hname⟩ := hname
  split at ha
  · rename_i a' ha'
    cases ha
    split at hname
    · cases hname
      split at h
      · rename_i hplace
        cases h
        exact ⟨_, ha', hplace⟩
      · cases h
    · cases hname
  · cases ha

theorem eq_of_jumpEffect {n : Nat} {taken : Bool} (h : jumpEffect n taken = .jump place) :
    n = place := by
  rcases jumpEffect_cases n taken with hj | hn
  · rw [hj] at h
    exact Effect.jump.inj h
  · rw [hn] at h
    cases h

theorem leads_of_jump (h : (decisionAs p s i o).verdict = .ok (.jump place)) : Leads p i place := by
  have hperforms := decisionAs_performs h
  cases o with
  | jump =>
    simp only [decisionAs, Decision.of, bind_eq_ok, pure_eq, Except.ok.injEq] at h
    obtain ⟨n, hn, h⟩ := h
    cases h
    exact leads_of_target hn
  | jumpIf whenEqual =>
    simp only [decisionAs, Decision.of, bind_eq_ok, pure_eq, Except.ok.injEq] at h
    obtain ⟨a, -, b, -, n, hn, equal, -, h⟩ := h
    rw [← eq_of_jumpEffect h]
    exact leads_of_target hn
  | stackJumpIf whenEqual =>
    simp only [decisionAs] at h
    split at h
    · simp only [bind_eq_ok, pure_eq, Except.ok.injEq] at h
      obtain ⟨n, hn, equal, -, h⟩ := h
      rw [← eq_of_jumpEffect h]
      exact leads_of_target hn
    · cases h
  | _ => exact hperforms.elim

theorem leads_of_call (h : (decisionAs p s i .call).verdict = .ok (.call place)) :
    Leads p i place := by
  simp only [decisionAs, Decision.of, bind_eq_ok, pure_eq, Except.ok.injEq] at h
  obtain ⟨n, hn, h⟩ := h
  cases h
  exact leads_of_target hn

/-- A call is decided on by a call instruction, and it leads to the place. -/
theorem call_of_decision (h : (decision p s i).verdict = .ok (.call place)) :
    i.opcode = .call ∧ Leads p i place := by
  have hop := Operation.eq_call_of_performs (decision_performs h)
  unfold decision at h
  rw [hop] at h
  exact ⟨Opcode.eq_call_of_operation hop, leads_of_call h⟩

theorem calls_of_comeBack (h : (decisionAs p s i .comeBack).verdict = .ok (.comeBack place)) :
    s.calls = place :: s.calls.tail := by
  simp only [decisionAs, Decision.of] at h
  split at h
  · rename_i hcalls
    cases h
    rw [hcalls]
    rfl
  · cases h

/-! ## What a step does to the counter and the call stack -/

/-- The ways in which an instruction moves the counter. -/
inductive Moves (p : Program) (i : Instruction) (s t : State) : Prop
  | on (hcounter : t.counter = s.counter + 1) (hcalls : t.calls = s.calls)
  | jump (hleads : Leads p i t.counter) (hcalls : t.calls = s.calls)
  | call (hop : i.opcode = .call) (hleads : Leads p i t.counter)
    (hcalls : t.calls = (s.counter + 1) :: s.calls)
  | comeBack (hop : i.opcode = .ret) (hcalls : s.calls = t.counter :: t.calls)

theorem moves_of_step? (hi : p.instructions[s.counter]? = some i)
    (h : step? p s = some (.next t)) : Moves p i s t := by
  rw [step?_of_instruction hi, Option.some.injEq] at h
  obtain ⟨e, u, he, hu, rfl⟩ := State.carryOut_eq_next h
  -- Three effects set the counter; the others leave it where fetching has put it.
  rcases State.perform_moves hu with ⟨place, rfl | rfl | rfl⟩ | ⟨hcounter, hcalls⟩
  · cases hu
    exact .jump (leads_of_jump he) rfl
  · cases hu
    obtain ⟨hop, hleads⟩ := call_of_decision he
    exact .call hop hleads rfl
  · cases hu
    have hop := Operation.eq_comeBack_of_performs (decision_performs he)
    unfold decision at he
    rw [hop] at he
    have hcalls := calls_of_comeBack he
    exact .comeBack (Opcode.eq_ret_of_operation hop) hcalls
  · exact .on hcounter hcalls

/-! ## The counter stays with the program -/

/-- The counter is at a place of the program or right behind its last one, and every place to come
back to is right behind a call. -/
structure Placed (p : Program) (s : State) : Prop where
  counter : s.counter ≤ p.size
  calls : ∀ place ∈ s.calls, ∃ n i, place = n + 1 ∧ p.instructions[n]? = some i ∧ i.opcode = .call

theorem lt_size_of_instruction {n : Nat} (hi : p.instructions[n]? = some i) : n < p.size := by
  obtain ⟨h, -⟩ := Array.getElem?_eq_some_iff.mp hi
  exact h

theorem placed_initial (p : Program) (input : Input) (output diagnostics : Output) :
    Placed p (.initial input output diagnostics) := by
  refine ⟨Nat.zero_le _, ?_⟩
  intro place h
  cases h

/-- One step keeps the counter with a program whose labels lead to places of its own. -/
theorem placed_of_step?
    (hlabels : ∀ name place, p.labels.resolve? name = some place → place < p.size)
    (hs : Placed p s) (h : step? p s = some (.next t)) : Placed p t := by
  obtain ⟨i, hi, -⟩ := exists_of_step? h
  have hlt : s.counter < p.size := lt_size_of_instruction hi
  rcases moves_of_step? hi h with ⟨hcounter, hcalls⟩ | ⟨⟨name, -, hplace⟩, hcalls⟩ |
    ⟨hop, ⟨name, -, hplace⟩, hcalls⟩ | ⟨hop, hcalls⟩
  · refine ⟨?_, ?_⟩
    · omega
    · rw [hcalls]
      exact hs.calls
  · refine ⟨Nat.le_of_lt (hlabels name _ hplace), ?_⟩
    rw [hcalls]
    exact hs.calls
  · refine ⟨Nat.le_of_lt (hlabels name _ hplace), ?_⟩
    rw [hcalls]
    intro place hmem
    rcases List.mem_cons.mp hmem with rfl | hmem
    · exact ⟨s.counter, i, rfl, hi, hop⟩
    · exact hs.calls place hmem
  · -- The place to come back to is right behind a call, and the call is in the program.
    have htop := hs.calls t.counter (by rw [hcalls]; exact List.mem_cons_self ..)
    obtain ⟨n, j, hn, hj, -⟩ := htop
    have hltn : n < p.size := lt_size_of_instruction hj
    refine ⟨?_, ?_⟩
    · omega
    · intro place hmem
      exact hs.calls place (by rw [hcalls]; exact List.mem_cons_of_mem _ hmem)

/-- The labels of a program lead to places of its own. -/
theorem resolve?_lt_size {is : List Instruction} (hp : Program.ofInstructions is = .ok p)
    {name : String} (h : p.labels.resolve? name = some place) : place < p.size := by
  obtain ⟨i, hi, -⟩ := (Program.resolve?_ofInstructions hp).mp h
  rw [Program.size_ofInstructions hp]
  exact (List.getElem?_eq_some_iff.mp hi).1

/-- **The counter stays with the program**, from any state in which it does. -/
theorem placed_of_steps {is : List Instruction} (hp : Program.ofInstructions is = .ok p) {n : Nat}
    (hs : Placed p s) (h : Steps p n s t) : Placed p t := by
  induction h with
  | refl s => exact hs
  | cons hstep _ ih =>
    apply ih
    exact placed_of_step? (fun _ _ hplace => resolve?_lt_size hp hplace) hs hstep

/-- A run that has left its program is right behind the last place. -/
theorem counter_of_left (hs : Placed p s) (h : step? p s = none) : s.counter = p.size := by
  have hnone : p.instructions[s.counter]? = none := by
    rcases hi : p.instructions[s.counter]? with _ | i
    · rfl
    · rw [step?_of_instruction hi] at h
      cases h
  have hle : p.size ≤ s.counter := Array.getElem?_eq_none_iff.mp hnone
  have hge := hs.counter
  omega

end Machine

end FrameCode
