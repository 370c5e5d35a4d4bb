import FrameCode.Machine.Handler
import FrameCode.Proofs.Faults
import FrameCode.Proofs.Precedence

/-!
# Handlers and steps agree

Handlers change the state as they go along; steps look first and change it at once. Both do the same
in every state, whether the instruction is completed or fails: a round is a step (`round_run`), and
a run of rounds is a run of steps (`finish_loop`).

Most handlers are checks followed by one change. A check of the handler is a check of the decision
(`follows_check`), so a handler is taken apart along its decision, and a store at its end does not
fail since the checks before it have left the memory alone (`follows_store_destination`). The
handlers that take values off the data stack do this before their checks, and `Obeys` keeps count of
what is gone by then.

What steps are known to leave behind when they fail therefore holds of handlers, which could have
left anything (`kept_of_error`).
-/

namespace FrameCode.Machine

open FrameCode.Checks

/-- The result that a handler has if its instruction comes to an outcome at a place. -/
def Outcome.result (place : Nat) : Outcome → EStateM.Result Fault State Flow
  | .next s => .ok .next s
  | .exit code s => .ok (.exit code) s
  | .fault cause s => .error ⟨cause, place⟩ s

namespace Handler

variable {α β : Type} {p : Program} {s t : State} {i : Instruction} {v : Variable} {x y : Value}
  {cause : Cause} {verdict : Except Cause Effect} {rest : List Value}

/-! ## One part after the other -/

theorem run_get_bind (f : State → Handler α) : (get >>= f).run s = (f s).run s := rfl

theorem run_modify_bind (change : State → State) (f : PUnit → Handler α) :
    (modify change >>= f).run s = (f ⟨⟩).run (change s) := rfl

theorem run_fail_bind (cause : Cause) (f : α → Handler β) :
    (fail cause >>= f).run s = .error ⟨cause, s.place⟩ s := rfl

theorem check_of_ok {look : State → Except Cause α} {a : α} (h : look s = .ok a)
    (f : α → Handler β) : (check look >>= f).run s = (f a).run s := by
  unfold check
  rw [bind_assoc, run_get_bind, h, pure_bind]

theorem check_of_error {look : State → Except Cause α} (h : look s = .error cause)
    (f : α → Handler β) : (check look >>= f).run s = .error ⟨cause, s.place⟩ s := by
  unfold check
  rw [bind_assoc, run_get_bind, h, run_fail_bind]

theorem pop_of_cons (hs : s.stack = x :: rest) (f : Value → Handler α) :
    (pop >>= f).run s = (f x).run { s with stack := rest } := by
  unfold pop
  rw [bind_assoc, run_get_bind, hs]
  rfl

theorem pop_of_nil (hs : s.stack = []) (f : Value → Handler α) :
    (pop >>= f).run s = .error ⟨.dataStackUnderflow, s.place⟩ s := by
  unfold pop
  rw [bind_assoc, run_get_bind, hs, run_fail_bind]

theorem popPair_of_cons (hs : s.stack = y :: x :: rest) (f : Value × Value → Handler α) :
    (popPair >>= f).run s = (f (x, y)).run { s with stack := rest } := by
  have hlength : ¬s.stack.length < 2 := by
    rw [hs, List.length_cons, List.length_cons]
    omega
  unfold popPair
  rw [bind_assoc, run_get_bind, if_neg hlength, bind_assoc, pop_of_cons hs, bind_assoc,
    pop_of_cons rfl, pure_bind]

theorem popPair_of_lt (hs : s.stack.length < 2) (f : Value × Value → Handler α) :
    (popPair >>= f).run s = .error ⟨.dataStackUnderflow, s.place⟩ s := by
  unfold popPair
  rw [bind_assoc, run_get_bind, if_pos hs, run_fail_bind]

/-! ## Checks and an effect -/

/-- What the verdict of a decision makes of a state. -/
def decided (s : State) : Except Cause Effect → Outcome
  | .error cause => .fault cause s
  | .ok e => s.perform e

/-- In a state a handler does what a verdict says. -/
def Follows (h : Handler Flow) (s : State) (verdict : Except Cause Effect) : Prop :=
  h.run s = (decided s verdict).result s.place

/-- In a state a handler does what a decision says: the values taken are gone, whatever comes of
it. -/
def Obeys (h : Handler Flow) (s : State) (d : Decision) : Prop :=
  h.run s = (decided (s.taking d.taken) d.verdict).result s.place

theorem obeys_of_follows {h : Handler Flow} (hfollows : Follows h s verdict) :
    Obeys h s (.of verdict) := hfollows

/-- A check that a handler makes is a check of the verdict, and the rest follows the rest. -/
theorem follows_check_bind {look : State → Except Cause α} {f : α → Handler Flow}
    {g : α → Except Cause Effect} (hf : ∀ a, look s = .ok a → Follows (f a) s (g a)) :
    Follows (check look >>= f) s (look s >>= g) := by
  unfold Follows
  rcases hlook : look s with cause | a
  · exact check_of_error hlook f
  · rw [check_of_ok hlook]
    exact hf a hlook

theorem follows_check {look : State → Except Cause α} {f : α → Handler Unit}
    {g : α → Except Cause Effect} (hf : ∀ a, look s = .ok a → Follows (goingOn (f a)) s (g a)) :
    Follows (goingOn (check look >>= f)) s (look s >>= g) := by
  unfold goingOn
  rw [bind_assoc]
  exact follows_check_bind hf

/-- A store to a variable that was found does not fail. -/
theorem follows_store {c c' : Cell} (h : s.memory.cell v = .ok c) :
    Follows (goingOn (store v c')) s (.ok (.store v c')) := by
  unfold Follows goingOn store
  rw [bind_assoc, check_of_ok (Memory.assign_of_cell h c')]
  rfl

/-- A destination that was found is a variable that can be stored to. -/
theorem follows_store_destination {c : Cell} (h : destination s.memory i = .ok v) :
    Follows (goingOn (store v c)) s (.ok (.store v c)) := by
  obtain ⟨-, c', hc'⟩ := destination_eq_ok h
  exact follows_store hc'

/-! ## Operands and operators -/

theorem obeys_move (p : Program) (s : State) (i : Instruction) :
    Obeys (goingOn (move i)) s (decisionAs p s i .move) := by
  refine obeys_of_follows ?_
  unfold move
  refine follows_check fun v hv => ?_
  refine follows_check fun x _ => ?_
  exact follows_store_destination hv

theorem obeys_typeOf (p : Program) (s : State) (i : Instruction) :
    Obeys (goingOn (typeOf i)) s (decisionAs p s i .typeOf) := by
  refine obeys_of_follows ?_
  unfold typeOf
  refine follows_check fun v hv => ?_
  refine follows_check fun x _ => ?_
  exact follows_store_destination hv

theorem obeys_unary (f : UnaryOperator) (p : Program) (s : State) (i : Instruction) :
    Obeys (goingOn (unary f i)) s (decisionAs p s i (.unary f)) := by
  refine obeys_of_follows ?_
  unfold unary
  refine follows_check fun v hv => ?_
  refine follows_check fun a _ => ?_
  refine follows_check fun x _ => ?_
  exact follows_store_destination hv

theorem obeys_binary (f : BinaryOperator) (p : Program) (s : State) (i : Instruction) :
    Obeys (goingOn (binary f i)) s (decisionAs p s i (.binary f)) := by
  refine obeys_of_follows ?_
  unfold binary
  refine follows_check fun v hv => ?_
  refine follows_check fun a _ => ?_
  refine follows_check fun b _ => ?_
  refine follows_check fun x _ => ?_
  exact follows_store_destination hv

theorem obeys_setChar (p : Program) (s : State) (i : Instruction) :
    Obeys (goingOn (setChar i)) s (decisionAs p s i .setChar) := by
  refine obeys_of_follows ?_
  unfold setChar
  refine follows_check fun v hv => ?_
  refine follows_check fun a _ => ?_
  refine follows_check fun b _ => ?_
  refine follows_check fun c _ => ?_
  refine follows_check fun x _ => ?_
  exact follows_store_destination hv

/-! ## Frames and calls -/

theorem obeys_pushFrame (p : Program) (s : State) (i : Instruction) :
    Obeys (goingOn pushFrame) s (decisionAs p s i .pushFrame) := by
  refine obeys_of_follows ?_
  unfold Follows goingOn pushFrame
  rw [bind_assoc, run_get_bind]
  rcases htemporary : s.memory.temporary with _ | f
  · rfl
  · simp only [decided, State.perform, Memory.pushFrame, htemporary]
    rfl

theorem obeys_popFrame (p : Program) (s : State) (i : Instruction) :
    Obeys (goingOn popFrame) s (decisionAs p s i .popFrame) := by
  refine obeys_of_follows ?_
  unfold Follows goingOn popFrame
  rw [bind_assoc, run_get_bind]
  rcases hlocals : s.memory.locals with _ | ⟨f, rest⟩
  · rfl
  · simp only [decided, State.perform, Memory.popFrame, hlocals]
    rfl

/-- In a frame that was found a change makes the same as its result. -/
theorem mapFrame_of_frame {m : Memory} {kind : FrameName} {f : Frame} (h : m.frame kind = .ok f)
    (change : Frame → Frame) : m.mapFrame kind change = m.mapFrame kind fun _ => change f := by
  unfold Memory.frame at h
  cases kind with
  | global =>
    cases h
    rfl
  | topLocal =>
    rcases hlocals : m.locals with _ | ⟨g, rest⟩ <;>
      simp only [Memory.frame?, hlocals, List.head?_nil, List.head?_cons] at h <;> cases h
    simp only [Memory.mapFrame, hlocals, List.modifyHead_cons]
  | temporary =>
    rcases htemporary : m.temporary with _ | g <;>
      simp only [Memory.frame?, htemporary] at h <;> cases h
    simp only [Memory.mapFrame, htemporary, Option.map_some]

theorem obeys_declare (p : Program) (s : State) (i : Instruction) :
    Obeys (goingOn (declare i)) s (decisionAs p s i .declare) := by
  refine obeys_of_follows ?_
  unfold declare
  refine follows_check fun v _ => ?_
  refine follows_check fun f hf => ?_
  by_cases htaken : f.contains v.name = true
  · have hnone : f.declare? v.name = none := if_pos htaken
    rw [hnone, if_pos htaken]
    rfl
  · obtain ⟨g, hg⟩ : ∃ g, f.declare? v.name = some g := ⟨_, if_neg htaken⟩
    have hdeclare : s.memory.declare v = s.memory.mapFrame v.frame fun _ => g := by
      unfold Memory.declare
      rw [mapFrame_of_frame hf, hg, Option.getD_some]
    rw [hg, if_neg htaken]
    unfold Follows
    simp only [decided, State.perform, hdeclare]
    rfl

theorem obeys_call (p : Program) (s : State) (i : Instruction) :
    Obeys (goingOn (call p i)) s (decisionAs p s i .call) :=
  obeys_of_follows (follows_check fun _ _ => rfl)

theorem obeys_comeBack (p : Program) (s : State) (i : Instruction) :
    Obeys (goingOn comeBack) s (decisionAs p s i .comeBack) := by
  refine obeys_of_follows ?_
  unfold Follows goingOn comeBack
  rw [bind_assoc, run_get_bind]
  rcases hcalls : s.calls with _ | ⟨place, rest⟩
  · rfl
  · simp only [decided, State.perform, hcalls]
    rfl

/-! ## The data stack -/

theorem obeys_push (p : Program) (s : State) (i : Instruction) :
    Obeys (goingOn (pushArgument i)) s (decisionAs p s i .push) :=
  obeys_of_follows (follows_check fun _ _ => rfl)

/-- Taking a value leaves the memory alone, so the destination is still there. -/
theorem obeys_pop (p : Program) (s : State) (i : Instruction) :
    Obeys (goingOn (popInto i)) s (decisionAs p s i .pop) := by
  unfold Obeys goingOn popInto
  rw [bind_assoc]
  rcases hv : destination s.memory i with cause | v
  · rw [check_of_error hv]
    simp only [decisionAs, hv]
    rfl
  · rw [check_of_ok hv, bind_assoc]
    rcases hs : s.stack with _ | ⟨x, rest⟩
    · rw [pop_of_nil hs]
      simp only [decisionAs, hv, hs]
      rfl
    · rw [pop_of_cons hs]
      simp only [decisionAs, hv, hs, State.taking, List.drop_one, List.tail_cons]
      exact follows_store_destination (s := { s with stack := rest }) hv

theorem obeys_stackUnary (f : UnaryOperator) (p : Program) (s : State) (i : Instruction) :
    Obeys (goingOn (stackUnary f)) s (decisionAs p s i (.stackUnary f)) := by
  unfold Obeys goingOn stackUnary
  rw [bind_assoc]
  rcases hs : s.stack with _ | ⟨x, rest⟩
  · rw [pop_of_nil hs]
    simp only [decisionAs, hs]
    rfl
  · rw [pop_of_cons hs]
    simp only [decisionAs, hs, State.taking, List.drop_one, List.tail_cons]
    exact follows_check fun _ _ => rfl

theorem obeys_stackBinary (f : BinaryOperator) (p : Program) (s : State) (i : Instruction) :
    Obeys (goingOn (stackBinary f)) s (decisionAs p s i (.stackBinary f)) := by
  unfold Obeys goingOn stackBinary
  rw [bind_assoc]
  -- A value that is alone on the stack stays there; two are gone even if the operator fails.
  rcases hs : s.stack with _ | ⟨right, _ | ⟨left, rest⟩⟩
  · rw [popPair_of_lt (by simp [hs])]
    simp only [decisionAs, hs]
    rfl
  · rw [popPair_of_lt (by simp [hs])]
    simp only [decisionAs, hs]
    rfl
  · rw [popPair_of_cons hs]
    simp only [decisionAs, hs, State.taking, List.drop_succ_cons, List.drop_zero]
    exact follows_check fun _ _ => rfl

/-! ## Jumps -/

theorem follows_jumpWhen (place : Nat) (whenEqual : Bool) (a b : Value) :
    Follows (goingOn (jumpWhen place whenEqual a b)) s
      (do return jumpEffect place ((← Operator.equals a b) == whenEqual)) := by
  unfold jumpWhen
  refine follows_check fun equal _ => ?_
  unfold jumpEffect
  by_cases htaken : (equal == whenEqual) = true
  · rw [if_pos htaken, if_pos htaken]
    rfl
  · rw [if_neg htaken, if_neg htaken]
    rfl

theorem obeys_jump (p : Program) (s : State) (i : Instruction) :
    Obeys (goingOn (jump p i)) s (decisionAs p s i .jump) :=
  obeys_of_follows (follows_check fun _ _ => rfl)

theorem obeys_jumpIf (whenEqual : Bool) (p : Program) (s : State) (i : Instruction) :
    Obeys (goingOn (jumpIf whenEqual p i)) s (decisionAs p s i (.jumpIf whenEqual)) := by
  refine obeys_of_follows ?_
  unfold jumpIf
  refine follows_check fun a _ => ?_
  refine follows_check fun b _ => ?_
  refine follows_check fun place _ => ?_
  exact follows_jumpWhen place whenEqual a b

theorem obeys_stackJumpIf (whenEqual : Bool) (p : Program) (s : State) (i : Instruction) :
    Obeys (goingOn (stackJumpIf whenEqual p i)) s (decisionAs p s i (.stackJumpIf whenEqual)) := by
  unfold Obeys goingOn stackJumpIf
  rw [bind_assoc]
  rcases hs : s.stack with _ | ⟨right, _ | ⟨left, rest⟩⟩
  · rw [popPair_of_lt (by simp [hs])]
    simp only [decisionAs, hs]
    rfl
  · rw [popPair_of_lt (by simp [hs])]
    simp only [decisionAs, hs]
    rfl
  · rw [popPair_of_cons hs]
    simp only [decisionAs, hs, State.taking, List.drop_succ_cons, List.drop_zero]
    refine follows_check fun place _ => ?_
    exact follows_jumpWhen place whenEqual left right

theorem obeys_exit (p : Program) (s : State) (i : Instruction) :
    Obeys (exit i) s (decisionAs p s i .exit) := by
  unfold exit
  refine obeys_of_follows ?_
  refine follows_check_bind fun x _ => ?_
  exact follows_check_bind fun _ _ => rfl

/-! ## Channels -/

theorem follows_write (text : String) : Follows (goingOn (write text)) s (.ok (.write text)) := by
  unfold Follows goingOn write
  rw [bind_assoc, run_get_bind]
  simp only [decided, State.perform]
  rcases hwrite : s.output.write text with ⟨reason | _, output⟩
  · rfl
  · rfl

theorem follows_diagnose (text : String) :
    Follows (goingOn (diagnose text)) s (.ok (.diagnose text)) := by
  unfold Follows goingOn diagnose
  rw [bind_assoc, run_get_bind]
  simp only [decided, State.perform]
  rcases hwrite : s.diagnostics.write text with ⟨reason | _, diagnostics⟩
  · rfl
  · rfl

theorem obeys_write (p : Program) (s : State) (i : Instruction) :
    Obeys (goingOn (writeArgument i)) s (decisionAs p s i .write) :=
  obeys_of_follows (follows_check fun x _ => follows_write x.text)

theorem obeys_debugPrint (p : Program) (s : State) (i : Instruction) :
    Obeys (goingOn (debugPrint i)) s (decisionAs p s i .debugPrint) :=
  obeys_of_follows (follows_check fun x _ => follows_diagnose x.text)

theorem obeys_breakpoint (p : Program) (s : State) (i : Instruction) :
    Obeys (goingOn breakpoint) s (decisionAs p s i .breakpoint) := by
  refine obeys_of_follows ?_
  unfold Follows goingOn breakpoint
  rw [bind_assoc, run_get_bind]
  exact follows_diagnose s.dump

/-- Reading leaves the memory alone, so the destination is still there when the line has come. -/
theorem obeys_read (p : Program) (s : State) (i : Instruction) :
    Obeys (goingOn (read i)) s (decisionAs p s i .read) := by
  refine obeys_of_follows ?_
  unfold read
  refine follows_check fun v hv => ?_
  refine follows_check fun type _ => ?_
  by_cases hnil : type = .nil
  · rw [if_pos hnil, if_pos hnil]
    rfl
  · rw [if_neg hnil, if_neg hnil]
    unfold Follows goingOn readLine
    simp only [decided, State.perform]
    rw [bind_assoc, bind_assoc, run_get_bind]
    rcases hread : s.input.readLine with ⟨reason | line, input⟩
    · rfl
    · exact follows_store_destination (s := { s with input := input }) hv

/-! ## Instructions and runs -/

/-- **A handler does what its operation is decided to do**, in every state. -/
theorem obeys_decisionAs (p : Program) (s : State) (i : Instruction) (o : Operation) :
    Obeys (handleAs p i o) s (decisionAs p s i o) := by
  cases o with
  | createFrame | clear | mark => rfl
  | move => exact obeys_move p s i
  | pushFrame => exact obeys_pushFrame p s i
  | popFrame => exact obeys_popFrame p s i
  | declare => exact obeys_declare p s i
  | call => exact obeys_call p s i
  | comeBack => exact obeys_comeBack p s i
  | push => exact obeys_push p s i
  | pop => exact obeys_pop p s i
  | binary f => exact obeys_binary f p s i
  | unary f => exact obeys_unary f p s i
  | stackBinary f => exact obeys_stackBinary f p s i
  | stackUnary f => exact obeys_stackUnary f p s i
  | read => exact obeys_read p s i
  | write => exact obeys_write p s i
  | setChar => exact obeys_setChar p s i
  | typeOf => exact obeys_typeOf p s i
  | jump => exact obeys_jump p s i
  | jumpIf whenEqual => exact obeys_jumpIf whenEqual p s i
  | stackJumpIf whenEqual => exact obeys_stackJumpIf whenEqual p s i
  | exit => exact obeys_exit p s i
  | debugPrint => exact obeys_debugPrint p s i
  | breakpoint => exact obeys_breakpoint p s i

/-- The result with the instruction recorded if it was completed. -/
def recorded (i : Instruction) : EStateM.Result Fault State Flow → EStateM.Result Fault State Flow
  | .ok flow s => .ok flow (s.completed i)
  | .error fault s => .error fault s

theorem run_bind_completed (h : Handler Flow) (i : Instruction) (s : State) :
    (do let flow ← h; modify fun s => s.completed i; return flow : Handler Flow).run s =
      recorded i (h.run s) := by
  change EStateM.bind h _ s = recorded i (h s)
  unfold EStateM.bind
  cases h s with
  | ok flow t => rfl
  | error fault t => rfl

theorem round_run_eq (p : Program) (i : Instruction) (s : State) :
    (round p i).run s = recorded i ((handleAs p i i.opcode.operation).run s.advanced) := by
  unfold round
  rw [run_modify_bind]
  exact run_bind_completed _ i s.advanced

/-- **A round is a step**: what a handler has done by the time it fails, and the place it blames,
are those of the instruction carried out at once. -/
theorem round_run (p : Program) (i : Instruction) (s : State) :
    (round p i).run s = (s.advanced.carryOut p i).result s.counter := by
  have hobeys := obeys_decisionAs p s.advanced i i.opcode.operation
  rw [round_run_eq, hobeys]
  -- A completed instruction is recorded on both sides, and one that fails on neither.
  unfold State.carryOut decision
  generalize decisionAs p s.advanced i i.opcode.operation = d
  rcases d with ⟨taken, cause | e⟩
  · rfl
  · simp only [decided]
    rcases (s.advanced.taking taken).perform e with t | ⟨code, t⟩ | ⟨cause, t⟩
    · rfl
    · rfl
    · rfl

end Handler

/-- The end that a run of rounds comes to. -/
def Finish.ofResult? : EStateM.Result Fault State (Option Nat) → Option Finish
  | .ok none _ => none
  | .ok (some code) s => some ⟨.ok code, s⟩
  | .error fault s => some ⟨.error fault, s⟩

namespace Handler

variable {p : Program} {s t : State} {i : Instruction} {cause : Cause} {fault : Fault}

theorem loop_run_succ (p : Program) (fuel : Nat) (s : State) :
    Finish.ofResult? ((loop p (fuel + 1)).run s) =
      match p.instructions[s.counter]? with
      | none => some ⟨.ok 0, s⟩
      | some i =>
        match s.advanced.carryOut p i with
        | .next t => Finish.ofResult? ((loop p fuel).run t)
        | .exit code t => some ⟨.ok code, t⟩
        | .fault cause t => some ⟨.error ⟨cause, s.counter⟩, t⟩ := by
  rw [loop, run_get_bind]
  rcases p.instructions[s.counter]? with _ | i
  · rfl
  · -- The rest of the loop sees nothing of the round but its result.
    have hround := round_run p i s
    change Finish.ofResult? (EStateM.bind _ _ _) = _
    unfold EStateM.run at hround
    simp only [EStateM.bind, hround]
    rcases s.advanced.carryOut p i with t | ⟨code, t⟩ | ⟨cause, t⟩
    · rfl
    · rfl
    · rfl

/-- **Runs of handlers are runs of steps**: with any number of rounds, from any state. -/
theorem finish_loop (p : Program) (fuel : Nat) (s : State) :
    Finish.ofResult? ((loop p fuel).run s) = loop? p fuel s := by
  induction fuel generalizing s with
  | zero => rfl
  | succ fuel ih =>
    rw [loop_run_succ, loop?, step?]
    cases p.instructions[s.counter]? with
    | none => rfl
    | some i =>
      cases hout : s.advanced.carryOut p i with
      | next t =>
        simp only [hout]
        exact ih t
      | exit code t => simp only [hout]
      | fault cause t => simp only [hout]

/-- **A round that fails leaves the machine as it was** but for the counter, the stack operands that
were taken and the channel that failed, and it blames the place where it started. -/
theorem kept_of_error (h : (round p i).run s = .error fault t) :
    fault.place = s.counter ∧ ∃ lost, Kept s t lost := by
  rw [round_run] at h
  cases hout : s.advanced.carryOut p i with
  | next u =>
    rw [hout] at h
    cases h
  | exit code u =>
    rw [hout] at h
    cases h
  | fault cause u =>
    rw [hout] at h
    cases h
    refine ⟨rfl, ?_⟩
    rcases State.carryOut_eq_fault hout with ⟨-, rfl⟩ | ⟨e, he, hperform⟩
    · exact ⟨_, kept_taking s _⟩
    · exact ⟨0, (kept_of_effect he hperform).1⟩

end Handler

end FrameCode.Machine
