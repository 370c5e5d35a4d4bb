import FrameCode.Machine.Step
import FrameCode.Proofs.Checks

/-!
# What a step can do

A step fetches an instruction, decides it and performs the effect it decided on. Each of the three
can be taken apart once and for all: `exists_of_step?` for the fetch, `carryOut_eq_fault`,
`carryOut_eq_next` and `carryOut_eq_exit` for the instruction, `perform_eq_fault` and
`perform_eq_exit` for the effect. Performing fails at a channel only, and `decision_performs` tells
which effect belongs to which operation, so a channel that fails belongs to one of the four opcodes
that use it.
-/

namespace FrameCode

/-- The effects that an operation can decide on. -/
def Operation.Performs : Operation → Machine.Effect → Prop
  | .move, .store _ _ | .pop, .store _ _ | .binary _, .store _ _ | .unary _, .store _ _
  | .setChar, .store _ _ | .typeOf, .store _ _ => True
  | .declare, .declare _ => True
  | .createFrame, .createFrame | .pushFrame, .pushFrame | .popFrame, .popFrame => True
  | .push, .push _ | .stackBinary _, .push _ | .stackUnary _, .push _ => True
  | .clear, .clear => True
  | .call, .call _ | .comeBack, .comeBack _ | .jump, .jump _ => True
  | .jumpIf _, .jump _ | .jumpIf _, .nothing => True
  | .stackJumpIf _, .jump _ | .stackJumpIf _, .nothing => True
  | .mark, .nothing => True
  | .read, .read _ _ | .write, .write _ => True
  | .debugPrint, .diagnose _ | .breakpoint, .diagnose _ => True
  | .exit, .exit _ => True
  | _, _ => False

namespace Operation

open FrameCode.Machine

theorem eq_read_of_performs {o : Operation} {v : Variable} {t : ValueType}
    (h : o.Performs (.read v t)) : o = .read := by
  cases o with
  | read => rfl
  | _ => exact h.elim

theorem eq_write_of_performs {o : Operation} {text : String} (h : o.Performs (.write text)) :
    o = .write := by
  cases o with
  | write => rfl
  | _ => exact h.elim

theorem eq_debugging_of_performs {o : Operation} {text : String}
    (h : o.Performs (.diagnose text)) : o = .debugPrint ∨ o = .breakpoint := by
  cases o with
  | debugPrint => exact .inl rfl
  | breakpoint => exact .inr rfl
  | _ => exact h.elim

end Operation

namespace Opcode

theorem eq_read_of_operation {op : Opcode} (h : op.operation = .read) : op = .read := by
  cases op with
  | read => rfl
  | _ => cases h

theorem eq_write_of_operation {op : Opcode} (h : op.operation = .write) : op = .write := by
  cases op with
  | write => rfl
  | _ => cases h

theorem eq_debugPrint_of_operation {op : Opcode} (h : op.operation = .debugPrint) :
    op = .debugPrint := by
  cases op with
  | debugPrint => rfl
  | _ => cases h

theorem eq_breakpoint_of_operation {op : Opcode} (h : op.operation = .breakpoint) :
    op = .breakpoint := by
  cases op with
  | breakpoint => rfl
  | _ => cases h

end Opcode

namespace Machine

open FrameCode.Checks

variable {p : Program} {s t : State} {i : Instruction} {cause : Cause} {e : Effect}

/-! ## Fetching -/

theorem exists_of_step? {o : Outcome} (h : step? p s = some o) :
    ∃ i, p.instructions[s.counter]? = some i ∧ s.advanced.carryOut p i = o := by
  unfold step? at h
  split at h
  · rename_i i hi
    exact ⟨i, hi, Option.some.inj h⟩
  · cases h

theorem step?_of_instruction (hi : p.instructions[s.counter]? = some i) :
    step? p s = some (s.advanced.carryOut p i) := by
  unfold step?
  rw [hi]

theorem step?_eq_none (h : p.instructions[s.counter]? = none) : step? p s = none := by
  unfold step?
  rw [h]

/-! ## Performing -/

namespace State

/-- An effect fails at the channel it uses, and what it leaves differs in that channel only. -/
theorem perform_eq_fault (h : s.perform e = .fault cause t) :
    (∃ v ty reason input, e = .read v ty ∧ cause = .channel reason ∧
      t = { s with input := input }) ∨
    (∃ text reason output, e = .write text ∧ cause = .channel reason ∧
      t = { s with output := output }) ∨
    (∃ text reason diagnostics, e = .diagnose text ∧ cause = .channel reason ∧
      t = { s with diagnostics := diagnostics }) := by
  cases e with
  | read v ty =>
    unfold perform at h
    dsimp only at h
    split at h
    · cases h
    · rename_i reason input _
      cases h
      exact .inl ⟨v, ty, reason, input, rfl, rfl, rfl⟩
  | write text =>
    unfold perform at h
    dsimp only at h
    split at h
    · cases h
    · rename_i reason output _
      cases h
      exact .inr (.inl ⟨text, reason, output, rfl, rfl, rfl⟩)
  | diagnose text =>
    unfold perform at h
    dsimp only at h
    split at h
    · cases h
    · rename_i reason diagnostics _
      cases h
      exact .inr (.inr ⟨text, reason, diagnostics, rfl, rfl, rfl⟩)
  | _ => cases h

/-- Exiting is an effect of its own, and it changes nothing. -/
theorem perform_eq_exit {code : Nat} (h : s.perform e = .exit code t) :
    e = .exit code ∧ t = s := by
  cases e with
  | exit =>
    cases h
    exact ⟨rfl, rfl⟩
  | read | write | diagnose =>
    unfold perform at h
    dsimp only at h
    split at h
    · cases h
    · cases h
  | _ => cases h

/-- Only jumping, calling and coming back move the counter and change the call stack. -/
theorem perform_moves (h : s.perform e = .next t) :
    (∃ place, e = .jump place ∨ e = .call place ∨ e = .comeBack place) ∨
      t.counter = s.counter ∧ t.calls = s.calls := by
  cases e with
  | jump place => exact .inl ⟨place, .inl rfl⟩
  | call place => exact .inl ⟨place, .inr (.inl rfl)⟩
  | comeBack place => exact .inl ⟨place, .inr (.inr rfl)⟩
  | read | write | diagnose =>
    unfold perform at h
    dsimp only at h
    split at h
    · cases h
      exact .inr ⟨rfl, rfl⟩
    · cases h
  | exit code => cases h
  | _ =>
    cases h
    exact .inr ⟨rfl, rfl⟩

end State

/-! ## Carrying out -/

namespace State

theorem carryOut_of_error (h : (decision p s i).verdict = .error cause) :
    s.carryOut p i = .fault cause (s.taking (decision p s i).taken) := by
  unfold carryOut
  dsimp only
  rw [h]

theorem carryOut_of_next (h : (decision p s i).verdict = .ok e)
    (he : (s.taking (decision p s i).taken).perform e = .next t) :
    s.carryOut p i = .next (t.completed i) := by
  unfold carryOut
  dsimp only
  rw [h]
  dsimp only
  rw [he]

/-- An instruction fails because of its checks, before it changes anything but the data stack, or
because of the effect it decided on. -/
theorem carryOut_eq_fault (h : s.carryOut p i = .fault cause t) :
    ((decision p s i).verdict = .error cause ∧ t = s.taking (decision p s i).taken) ∨
      ∃ e, (decision p s i).verdict = .ok e ∧
        (s.taking (decision p s i).taken).perform e = .fault cause t := by
  unfold carryOut at h
  dsimp only at h
  split at h
  · rename_i c hc
    cases h
    exact .inl ⟨hc, rfl⟩
  · rename_i e he
    split at h
    · cases h
    · cases h
    · rename_i hp
      cases h
      exact .inr ⟨e, he, hp⟩

theorem carryOut_eq_next (h : s.carryOut p i = .next t) :
    ∃ e u, (decision p s i).verdict = .ok e ∧
      (s.taking (decision p s i).taken).perform e = .next u ∧ t = u.completed i := by
  unfold carryOut at h
  dsimp only at h
  split at h
  · cases h
  · rename_i e he
    split at h
    · rename_i u hp
      cases h
      exact ⟨e, u, he, hp, rfl⟩
    · cases h
    · cases h

/-- An instruction that exits changes nothing but the data stack and the profile. -/
theorem carryOut_eq_exit {code : Nat} (h : s.carryOut p i = .exit code t) :
    (decision p s i).verdict = .ok (.exit code) ∧
      t = (s.taking (decision p s i).taken).completed i := by
  unfold carryOut at h
  dsimp only at h
  split at h
  · cases h
  · rename_i e he
    split at h
    · cases h
    · rename_i u hp
      cases h
      obtain ⟨rfl, rfl⟩ := perform_eq_exit hp
      exact ⟨he, rfl⟩
    · cases h

end State

theorem step?_of_error {k : Nat} (hi : p.instructions[s.counter]? = some i)
    (hd : decision p s.advanced i = ⟨k, .error cause⟩) :
    step? p s = some (.fault cause (s.advanced.taking k)) := by
  rw [step?_of_instruction hi, State.carryOut_of_error (by rw [hd]), hd]

theorem step?_of_next {k : Nat} (hi : p.instructions[s.counter]? = some i)
    (hd : decision p s.advanced i = ⟨k, .ok e⟩)
    (he : (s.advanced.taking k).perform e = .next t) :
    step? p s = some (.next (t.completed i)) := by
  rw [step?_of_instruction hi, State.carryOut_of_next (by rw [hd]) (by rw [hd]; exact he)]

/-! ## Deciding -/

theorem jumpEffect_cases (place : Nat) (taken : Bool) :
    jumpEffect place taken = .jump place ∨ jumpEffect place taken = .nothing := by
  unfold jumpEffect
  split
  · exact .inl rfl
  · exact .inr rfl

/-- A decision to act is one for an effect of the operation. -/
theorem decisionAs_performs {o : Operation} (h : (decisionAs p s i o).verdict = .ok e) :
    o.Performs e := by
  cases o with
  | createFrame | clear | mark | breakpoint =>
    cases h
    trivial
  | pushFrame | popFrame | comeBack =>
    simp only [decisionAs, Decision.of] at h
    split at h
    · cases h
      trivial
    · cases h
  | call | push | write | jump | debugPrint =>
    simp only [decisionAs, Decision.of, bind_eq_ok, pure_eq, Except.ok.injEq] at h
    obtain ⟨_, -, rfl⟩ := h
    trivial
  | move | typeOf | exit =>
    simp only [decisionAs, Decision.of, bind_eq_ok, pure_eq, Except.ok.injEq] at h
    obtain ⟨_, -, _, -, rfl⟩ := h
    trivial
  | unary f =>
    simp only [decisionAs, Decision.of, bind_eq_ok, pure_eq, Except.ok.injEq] at h
    obtain ⟨_, -, _, -, _, -, rfl⟩ := h
    trivial
  | binary f =>
    simp only [decisionAs, Decision.of, bind_eq_ok, pure_eq, Except.ok.injEq] at h
    obtain ⟨_, -, _, -, _, -, _, -, rfl⟩ := h
    trivial
  | setChar =>
    simp only [decisionAs, Decision.of, bind_eq_ok, pure_eq, Except.ok.injEq] at h
    obtain ⟨_, -, _, -, _, -, _, -, _, -, rfl⟩ := h
    trivial
  | declare | read =>
    simp only [decisionAs, Decision.of, bind_eq_ok] at h
    obtain ⟨_, -, _, -, h⟩ := h
    split at h
    · cases h
    · cases h
      trivial
  | pop =>
    simp only [decisionAs] at h
    split at h
    · cases h
    · cases h
    · cases h
      trivial
  | stackBinary f =>
    simp only [decisionAs] at h
    split at h
    · obtain ⟨x, -, rfl⟩ := map_eq_ok.mp h
      trivial
    · cases h
  | stackUnary f =>
    simp only [decisionAs] at h
    split at h
    · obtain ⟨x, -, rfl⟩ := map_eq_ok.mp h
      trivial
    · cases h
  | jumpIf whenEqual =>
    simp only [decisionAs, Decision.of, bind_eq_ok, pure_eq, Except.ok.injEq] at h
    obtain ⟨a, -, b, -, place, -, equal, -, rfl⟩ := h
    -- A jump that is not taken decides on nothing; both effects belong to it.
    rcases jumpEffect_cases place (equal == whenEqual) with h | h
    · rw [h]; trivial
    · rw [h]; trivial
  | stackJumpIf whenEqual =>
    simp only [decisionAs] at h
    split at h
    · simp only [bind_eq_ok, pure_eq, Except.ok.injEq] at h
      obtain ⟨place, -, equal, -, rfl⟩ := h
      rcases jumpEffect_cases place (equal == whenEqual) with h | h
      · rw [h]; trivial
      · rw [h]; trivial
    · cases h

theorem decision_performs (h : (decision p s i).verdict = .ok e) :
    i.opcode.operation.Performs e :=
  decisionAs_performs h

end Machine

end FrameCode
