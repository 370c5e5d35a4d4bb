import FrameCode.Proofs.Bracketing
import FrameCode.Proofs.Mnemonics
import FrameCode.Proofs.Precedence
import FrameCode.Proofs.Reading
import FrameCode.Proofs.Sites
import FrameCode.Proofs.Termination

/-!
# The footprint of an instruction

An instruction that is completed changes what it is there to change and nothing else. For each part
of the state, the profile apart, there is a list of the opcodes that may touch it.

For the frames the list is `Touches`: an instruction stores to its destination, declares a variable,
moves a whole frame, or leaves all frames alone. The cells are named by their sites, so the
statement is about every cell of the memory, in reach or not, and a name that is declared in several
frames is several cells. Where a frame is moved, `Opcode.origin?` tells which site it comes from,
and a cell moves with its frame. For the data stack the list is `Operation.Restacks`, and the
counter and the call stack go by `Moves` and `Redirects`.
-/

namespace FrameCode

/-- The site that the frame at a site had before an instruction; none if the instruction has put a
new frame there, or has left no frame there. -/
def Opcode.origin? : Opcode → Site → Option Site
  | .createFrame, .temporary => none
  | .pushFrame, .stacked 0 => some .temporary
  | .pushFrame, .stacked (depth + 1) => some (.stacked depth)
  | .pushFrame, .temporary => none
  | .popFrame, .stacked depth => some (.stacked (depth + 1))
  | .popFrame, .temporary => some (.stacked 0)
  | _, site => some site

/-- The opcodes that make, drop or move whole frames. -/
def Opcode.moving : List Opcode :=
  [.createFrame, .pushFrame, .popFrame]

/-- The opcodes that change which frames there are, or which names a frame has. -/
def Opcode.framing : List Opcode :=
  .defVar :: moving

/-- The opcode that an effect on whole frames, or on the names in them, belongs to. -/
def Machine.Effect.framing? : Machine.Effect → Option Opcode
  | .declare _ => some .defVar
  | .createFrame => some .createFrame
  | .pushFrame => some .pushFrame
  | .popFrame => some .popFrame
  | _ => none

/-- The cell of a name at a site is the destination of an instruction: the instruction assigns, and
the variable in its first operand names this cell. -/
def Instruction.Assigns (i : Instruction) (site : Site) (name : String) : Prop :=
  i.opcode.operation.assigns = true ∧
    ∃ v, i.args[0]? = some (.var v) ∧ v.site = site ∧ v.name = name

/-- An instruction moves an unset cell: it is a move, and what it moves is a variable whose cell is
unset. -/
def Instruction.MovesUnset (i : Instruction) (m : Memory) : Prop :=
  i.opcode = .move ∧
    ∃ w, i.args[1]? = some (.var w) ∧ m.cellAt? w.site w.name = some .unset

/-- What an operation makes of the data stack. Everything but the stack operations leaves it as it
is. -/
def Operation.Restacks (m : Memory) (i : Instruction) (before after : List Value) :
    Operation → Prop
  | .push => ∃ x, Machine.valueArgument m i 0 = .ok x ∧ after = x :: before
  | .pop => ∃ x, before = x :: after
  | .clear => after = []
  | .stackBinary f => ∃ left right rest x,
    before = right :: left :: rest ∧ f.eval left right = .ok x ∧ after = x :: rest
  | .stackUnary f => ∃ x rest y, before = x :: rest ∧ f.eval x = .ok y ∧ after = y :: rest
  | .stackJumpIf _ => ∃ left right, before = right :: left :: after
  | _ => after = before

namespace Opcode

open FrameCode.Machine

variable {op : Opcode} {e : Effect} {site : Site}

theorem origin?_of_not_mem (h : op ∉ moving) (site : Site) : op.origin? site = some site := by
  unfold origin?
  split
  · exact absurd (by decide) h
  · exact absurd (by decide) h
  · exact absurd (by decide) h
  · exact absurd (by decide) h
  · exact absurd (by decide) h
  · exact absurd (by decide) h
  · rfl

theorem not_mem_moving (h : op ∉ framing) : op ∉ moving :=
  fun hmem => h (List.mem_cons_of_mem _ hmem)

/-- Different opcodes act in different ways. -/
theorem operation_injective : Function.Injective operation := by
  have hnodup : (all.map operation).Nodup := by decide +kernel
  intro op op' h
  exact List.inj_on_of_nodup_map hnodup (mem_all op) (mem_all op') h

/-- An effect on whole frames belongs to one opcode. -/
theorem eq_of_framing? {q : Opcode} (h : op.operation.Performs e) (hq : e.framing? = some q) :
    op = q := by
  apply operation_injective
  generalize op.operation = o at h
  cases e with
  | declare v =>
    cases hq
    cases o with
    | declare => rfl
    | _ => exact h.elim
  | createFrame =>
    cases hq
    cases o with
    | createFrame => rfl
    | _ => exact h.elim
  | pushFrame =>
    cases hq
    cases o with
    | pushFrame => rfl
    | _ => exact h.elim
  | popFrame =>
    cases hq
    cases o with
    | popFrame => rfl
    | _ => exact h.elim
  | _ => cases hq

theorem not_mem_framing_of_performs (h : op.operation.Performs e) (he : e.framing? = none) :
    op ∉ framing := by
  intro hmem
  simp only [framing, moving, List.mem_cons, List.not_mem_nil, or_false] at hmem
  rcases hmem with rfl | rfl | rfl | rfl
  all_goals
    cases e with
    | declare | createFrame | pushFrame | popFrame => cases he
    | _ => exact h.elim

theorem not_mem_framing_of_assigns (h : op.operation.assigns = true) : op ∉ framing := by
  intro hmem
  simp only [framing, moving, List.mem_cons, List.not_mem_nil, or_false] at hmem
  rcases hmem with rfl | rfl | rfl | rfl
  all_goals exact absurd h (by decide)

end Opcode

namespace Operation

open FrameCode.Machine

variable {o : Operation} {v : Variable} {x : Cell} {e : Effect}

theorem assigns_of_store (h : o.Performs (.store v x)) : o.assigns = true := by
  cases o with
  | move | pop | binary f | unary f | setChar | typeOf => rfl
  | _ => exact h.elim

end Operation

/-! ## Moving frames -/

namespace Memory

variable {m : Memory} {f : Frame}

/-- The frame that an opcode which moves frames brings to a site: the one from the site it had
before, and where a frame comes from nowhere, a new one if the opcode makes one. -/
def carried (m : Memory) (op : Opcode) (site : Site) : Option Frame :=
  match op.origin? site with
  | some before => m.frameAt? before
  | none => if op = .createFrame then some .empty else none

theorem frameAt?_createFrame (m : Memory) (site : Site) :
    m.createFrame.frameAt? site = m.carried .createFrame site := by
  cases site with
  | globals => rfl
  | stacked depth => rfl
  | temporary => rfl

theorem frameAt?_pushFrame (hf : m.temporary = some f) (site : Site) :
    m.pushFrame.frameAt? site = m.carried .pushFrame site := by
  unfold pushFrame
  rw [hf]
  cases site with
  | globals => rfl
  | temporary => rfl
  | stacked depth =>
    cases depth with
    | zero => exact hf.symm
    | succ depth => rfl

theorem frameAt?_popFrame {rest : List Frame} (hf : m.locals = f :: rest) (site : Site) :
    m.popFrame.frameAt? site = m.carried .popFrame site := by
  unfold popFrame
  rw [hf]
  cases site with
  | globals => rfl
  | temporary =>
    show some f = m.locals[0]?
    rw [hf]
    rfl
  | stacked depth =>
    show rest[depth]? = m.locals[depth + 1]?
    rw [hf]
    rfl

end Memory

namespace Machine

open FrameCode.Checks

variable {p : Program} {s t u : State} {i : Instruction} {o : Outcome} {op : Operation} {e : Effect}
  {m m' : Memory} {v : Variable} {x : Cell}

/-! ## Instructions that are completed -/

/-- The state after an instruction that is completed, whether or not it ends the run. -/
def Outcome.completed? : Outcome → Option State
  | .next t | .exit _ t => some t
  | .fault _ _ => none

theorem Outcome.state_of_completed? (h : o.completed? = some t) : o.state = t := by
  cases o with
  | next u => exact Option.some.inj h
  | exit code u => exact Option.some.inj h
  | fault cause u => cases h

/-- What is completed has decided on an effect, and the effect has taken place. -/
theorem exists_effect (hi : p.instructions[s.counter]? = some i) (h : step? p s = some o)
    (ht : o.completed? = some t) :
    ∃ e u, (decision p s.advanced i).verdict = .ok e ∧
      ((s.advanced.taking (decision p s.advanced i).taken).perform e).completed? = some u ∧
      t = u.completed i := by
  rw [step?_of_instruction hi, Option.some.injEq] at h
  cases o with
  | next t' =>
    cases ht
    obtain ⟨e, u, he, hu, rfl⟩ := State.carryOut_eq_next h
    exact ⟨e, u, he, by rw [hu]; rfl, rfl⟩
  | exit code t' =>
    cases ht
    obtain ⟨he, rfl⟩ := State.carryOut_eq_exit h
    exact ⟨.exit code, _, he, rfl, rfl⟩
  | fault cause t' => cases ht

/-! ## Frames -/

/-- The ways in which a completed instruction changes the frames, each with the instructions that go
this way. A cell that is stored is unset only if a move has found an unset cell. -/
inductive Touches (i : Instruction) (m : Memory) : Memory → Prop
  | keep (hop : i.opcode ∉ Opcode.framing) : Touches i m m
  | store {v : Variable} {x : Cell} (hop : i.opcode.operation.assigns = true)
    (hv : i.args[0]? = some (.var v))
    (hx : x = .unset → i.MovesUnset m) : Touches i m (m.store v x)
  | declare {v : Variable} {f : Frame} (hop : i.opcode = .defVar)
    (hv : i.args[0]? = some (.var v)) (hf : m.frame? v.frame = some f)
    (hnew : f.contains v.name = false) : Touches i m (m.declare v)
  | create (hop : i.opcode = .createFrame) : Touches i m m.createFrame
  | push {f : Frame} (hop : i.opcode = .pushFrame) (hf : m.temporary = some f) :
    Touches i m m.pushFrame
  | pop {f : Frame} {rest : List Frame} (hop : i.opcode = .popFrame)
    (hf : m.locals = f :: rest) : Touches i m m.popFrame

/-- Only a variable has an unset cell; a constant counts as assigned. -/
theorem var_of_unset {n : Nat} (h : cellArgument m i n = .ok .unset) :
    ∃ w, i.args[n]? = some (.var w) ∧ m.cellAt? w.site w.name = some .unset := by
  unfold cellArgument argument at h
  rcases ha : i.args[n]? with _ | a
  · rw [ha] at h
    cases h
  · rw [ha] at h
    cases a with
    | var w => exact ⟨w, rfl, Memory.cell_eq_ok_iff.mp h⟩
    | _ => cases h

/-- An unset cell is stored by a move, which has found it in a variable. All other assignments have
a value to store. -/
theorem movesUnset_of_decision (h : (decision p s i).verdict = .ok (.store v .unset)) :
    i.MovesUnset s.memory := by
  have hperforms := decision_performs h
  unfold decision at h
  -- The opcode is forgotten, and an operation that stores at all is one of six.
  generalize ho : i.opcode.operation = op at h hperforms
  cases op with
  | move =>
    simp only [decisionAs, Decision.of, bind_eq_ok, pure_eq, Except.ok.injEq,
      Effect.store.injEq] at h
    obtain ⟨w, -, c, hc, -, rfl⟩ := h
    exact ⟨Opcode.operation_injective ho, var_of_unset hc⟩
  | typeOf | unary f | binary f | setChar =>
    simp [decisionAs, Decision.of, bind_eq_ok] at h
  | pop =>
    simp only [decisionAs] at h
    split at h
    · cases h
    · cases h
    · cases h
  | _ => exact hperforms.elim

/-- A declaration is decided on for a new name in a frame that exists. -/
theorem of_decision_declare (hop : i.opcode = .defVar)
    (h : (decision p s i).verdict = .ok (.declare v)) :
    i.args[0]? = some (.var v) ∧
      ∃ f, s.memory.frame? v.frame = some f ∧ f.contains v.name = false := by
  rw [decision, hop] at h
  simp only [Opcode.operation, decisionAs, Decision.of, bind_eq_ok] at h
  obtain ⟨w, hw, f, hf, h⟩ := h
  by_cases htaken : f.contains w.name = true
  · rw [if_pos htaken] at h
    cases h
  · rw [if_neg htaken] at h
    cases h
    refine ⟨var_of_argument hw, f, ?_, by simpa using htaken⟩
    unfold Memory.frame at hf
    split at hf
    · cases hf
      assumption
    · cases hf

/-- What an instruction does to the frames is what its effect does, and each effect belongs to the
instructions that go this way. -/
theorem touches_of_effect {k : Nat} (he : (decision p s i).verdict = .ok e)
    (hu : ((s.taking k).perform e).completed? = some u) : Touches i s.memory u.memory := by
  have hperforms := decision_performs he
  cases e with
  | store v x =>
    cases hu
    have hassigns := Operation.assigns_of_store hperforms
    obtain ⟨w, hw, ⟨y, hy⟩ | ⟨type, hy⟩⟩ := decisionAs_assigns hassigns he
    · cases hy
      refine .store hassigns (destination_eq_ok hw).1 ?_
      rintro rfl
      exact movesUnset_of_decision he
    · cases hy
  | read v type =>
    have hassigns : i.opcode.operation.assigns = true := by
      rw [Operation.eq_read_of_performs hperforms]
      rfl
    obtain ⟨w, hw, ⟨y, hy⟩ | ⟨type', hy⟩⟩ := decisionAs_assigns hassigns he
    · cases hy
    · cases hy
      -- What was read is a value, so the cell is not unset.
      unfold State.perform at hu
      dsimp only at hu
      split at hu
      · cases hu
        exact .store hassigns (destination_eq_ok hw).1 (fun h => by cases h)
      · cases hu
  | declare v =>
    cases hu
    have hop := Opcode.eq_of_framing? hperforms rfl
    obtain ⟨hv, f, hf, hnew⟩ := of_decision_declare hop he
    exact .declare hop hv hf hnew
  | createFrame =>
    cases hu
    exact .create (Opcode.eq_of_framing? hperforms rfl)
  | pushFrame =>
    cases hu
    have hop := Opcode.eq_of_framing? hperforms rfl
    rw [decision, hop] at he
    simp only [Opcode.operation, decisionAs, Decision.of] at he
    split at he
    · rename_i f hf
      exact .push hop hf
    · cases he
  | popFrame =>
    cases hu
    have hop := Opcode.eq_of_framing? hperforms rfl
    rw [decision, hop] at he
    simp only [Opcode.operation, decisionAs, Decision.of] at he
    split at he
    · rename_i f rest hf
      exact .pop hop hf
    · cases he
  | write text | diagnose text =>
    unfold State.perform at hu
    dsimp only at hu
    split at hu
    · cases hu
      exact .keep (Opcode.not_mem_framing_of_performs hperforms rfl)
    · cases hu
  | _ =>
    cases hu
    exact .keep (Opcode.not_mem_framing_of_performs hperforms rfl)

namespace Touches

variable {site before : Site} {name : String}

/-- An instruction that is not about frames stores to its destination at most. -/
theorem kept_or_stored (h : Touches i m m') (hop : i.opcode ∉ Opcode.framing) :
    m' = m ∨ ∃ v x, m' = m.store v x ∧ i.Assigns v.site v.name ∧
      (x = .unset → i.MovesUnset m) := by
  cases h with
  | keep => exact .inl rfl
  | @store v x hassigns hv hx => exact .inr ⟨v, x, rfl, ⟨hassigns, v, hv, rfl, rfl⟩, hx⟩
  | declare h | create h | push h | pop h =>
    rw [h] at hop
    exact absurd (by decide) hop

/-- A declaration adds one cell. -/
theorem declares (h : Touches i m m') (hop : i.opcode = .defVar) :
    ∃ v, i.args[0]? = some (.var v) ∧ m.Declares v m' := by
  cases h with
  | keep h =>
    rw [hop] at h
    exact absurd (by decide) h
  | store h =>
    rw [hop] at h
    cases h
  | declare _ hv hf hnew => exact ⟨_, hv, Memory.declares_declare hf hnew⟩
  | create h | push h | pop h => exact absurd (hop.symm.trans h) (by decide)

/-- A frame that is moved is moved as it is. -/
theorem moved (h : Touches i m m') (hop : i.opcode ∈ Opcode.moving) (site : Site) :
    m'.frameAt? site = m.carried i.opcode site := by
  cases h with
  | keep h => exact absurd hop (Opcode.not_mem_moving h)
  | store h => exact absurd hop (Opcode.not_mem_moving (Opcode.not_mem_framing_of_assigns h))
  | declare h =>
    rw [h] at hop
    exact absurd hop (by decide)
  | create h =>
    rw [h]
    exact m.frameAt?_createFrame site
  | push h hf =>
    rw [h]
    exact Memory.frameAt?_pushFrame hf site
  | pop h hf =>
    rw [h]
    exact Memory.frameAt?_popFrame hf site

/-- An instruction that is not about frames leaves their names alone. -/
theorem names (h : Touches i m m') (hop : i.opcode ∉ Opcode.framing) (site : Site) :
    (m'.frameAt? site).map Frame.names = (m.frameAt? site).map Frame.names := by
  rcases h.kept_or_stored hop with rfl | ⟨v, x, rfl, -⟩
  · rfl
  · exact m.names_store v x site

/-- An instruction that is not about frames leaves every cell alone but its destination. -/
theorem cells (h : Touches i m m') (hop : i.opcode ∉ Opcode.framing)
    (hother : ¬i.Assigns site name) : m'.cellAt? site name = m.cellAt? site name := by
  rcases h.kept_or_stored hop with rfl | ⟨v, x, rfl, hassigns, -⟩
  · rfl
  · rw [Memory.cellAt?_store, if_neg]
    rintro ⟨rfl, rfl⟩
    exact hother hassigns

/-- A cell that held a value holds one afterwards, wherever its frame has gone, unless a move has
stored an unset cell there. -/
theorem reset {y : Value} (h : Touches i m m') (hbefore : i.opcode.origin? site = some before)
    (hheld : m.cellAt? before name = some (.holding y))
    (hunset : m'.cellAt? site name = some .unset) :
    i.MovesUnset m ∧ i.Assigns site name := by
  by_cases hmoving : i.opcode ∈ Opcode.moving
  · -- The cell has moved with its frame.
    have hsame : m'.cellAt? site name = m.cellAt? before name := by
      unfold Memory.cellAt?
      rw [h.moved hmoving, Memory.carried, hbefore]
    rw [hsame, hheld] at hunset
    cases hunset
  · rw [Opcode.origin?_of_not_mem hmoving] at hbefore
    cases hbefore
    by_cases hop : i.opcode = .defVar
    · -- A cell that is declared was not there before, and the others are as they were.
      obtain ⟨v, -, hdeclares⟩ := h.declares hop
      by_cases hhere : site = v.site ∧ name = v.name
      · rw [hhere.1, hhere.2, hdeclares.undeclared] at hheld
        cases hheld
      · rw [hdeclares.cells site name hhere, hheld] at hunset
        cases hunset
    · have hframing : i.opcode ∉ Opcode.framing := by
        intro hmem
        rcases List.mem_cons.mp hmem with hmem | hmem
        · exact hop hmem
        · exact hmoving hmem
      rcases h.kept_or_stored hframing with rfl | ⟨v, x, rfl, hassigns, hx⟩
      · rw [hheld] at hunset
        cases hunset
      · rw [Memory.cellAt?_store, hheld] at hunset
        by_cases hhere : site = v.site ∧ name = v.name
        · rw [if_pos hhere] at hunset
          rw [hhere.1, hhere.2]
          exact ⟨hx (Option.some.inj hunset), hassigns⟩
        · rw [if_neg hhere] at hunset
          cases hunset

end Touches

/-! ## The data stack -/

theorem stack_of_perform (s : State) (e : Effect) :
    (s.perform e).state.stack =
      match e with
      | .push x => x :: s.stack
      | .clear => []
      | _ => s.stack := by
  cases e with
  | read | write | diagnose =>
    unfold State.perform
    dsimp only
    split
    · rfl
    · rfl
  | _ => rfl

/-- What an operation makes of the data stack. -/
theorem restacks_of_decision (he : (decisionAs p s i op).verdict = .ok e)
    (hu : ((s.taking (decisionAs p s i op).taken).perform e).state = u) :
    op.Restacks s.memory i s.stack u.stack := by
  have hperforms := decisionAs_performs he
  have hstack := stack_of_perform (s.taking (decisionAs p s i op).taken) e
  rw [hu] at hstack
  cases op with
  | push =>
    simp only [decisionAs, Decision.of, bind_eq_ok, pure_eq, Except.ok.injEq] at he
    obtain ⟨x, hx, rfl⟩ := he
    exact ⟨x, hx, hstack⟩
  | clear =>
    cases he
    exact hstack
  | pop =>
    rcases hv : destination s.memory i with cause | v
    · simp [decisionAs, hv, Decision.of] at he
    · rcases hs : s.stack with _ | ⟨x, rest⟩
      · simp [decisionAs, hv, hs, Decision.of] at he
      · simp only [decisionAs, hv, hs] at he hstack
        cases he
        refine ⟨x, ?_⟩
        rw [hstack, State.taking, hs]
        rfl
  | stackBinary f =>
    rcases hs : s.stack with _ | ⟨right, _ | ⟨left, rest⟩⟩
    · simp [decisionAs, hs, Decision.of] at he
    · simp [decisionAs, hs, Decision.of] at he
    · simp only [decisionAs, hs] at he hstack
      obtain ⟨x, hx, rfl⟩ := map_eq_ok.mp he
      refine ⟨left, right, rest, x, rfl, hx, ?_⟩
      rw [hstack, State.taking, hs]
      rfl
  | stackUnary f =>
    rcases hs : s.stack with _ | ⟨x, rest⟩
    · simp [decisionAs, hs, Decision.of] at he
    · simp only [decisionAs, hs] at he hstack
      obtain ⟨y, hy, rfl⟩ := map_eq_ok.mp he
      refine ⟨x, rest, y, rfl, hy, ?_⟩
      rw [hstack, State.taking, hs]
      rfl
  | stackJumpIf whenEqual =>
    rcases hs : s.stack with _ | ⟨right, _ | ⟨left, rest⟩⟩
    · simp [decisionAs, hs, Decision.of] at he
    · simp [decisionAs, hs, Decision.of] at he
    · simp only [decisionAs, hs] at hstack
      refine ⟨left, right, ?_⟩
      -- Taken or not, a jump leaves the stack without the two values that it has compared.
      cases e with
      | jump place | nothing =>
        rw [hstack, State.taking, hs]
        rfl
      | _ => exact hperforms.elim
  | _ =>
    -- No other operation pushes or clears, and no other takes values off the stack.
    cases e with
    | push | clear => exact hperforms.elim
    | _ => exact hstack

/-! ## Channels -/

theorem output_of_perform (s : State) {e : Effect} (h : ∀ text, e ≠ .write text) :
    (s.perform e).state.output = s.output := by
  cases e with
  | write text => exact absurd rfl (h text)
  | read | diagnose =>
    unfold State.perform
    dsimp only
    split
    · rfl
    · rfl
  | _ => rfl

theorem diagnostics_of_perform (s : State) {e : Effect} (h : ∀ text, e ≠ .diagnose text) :
    (s.perform e).state.diagnostics = s.diagnostics := by
  cases e with
  | diagnose text => exact absurd rfl (h text)
  | read | write =>
    unfold State.perform
    dsimp only
    split
    · rfl
    · rfl
  | _ => rfl

/-- Each channel is used by the effect of the opcodes that are there to use it. -/
theorem channels_of_effect {k : Nat} (he : (decision p s i).verdict = .ok e)
    (hu : ((s.taking k).perform e).state = u) :
    (i.opcode ≠ .read → u.input = s.input) ∧ (i.opcode ≠ .write → u.output = s.output) ∧
      (i.opcode ≠ .debugPrint → i.opcode ≠ .breakpoint → u.diagnostics = s.diagnostics) := by
  have hperforms := decision_performs he
  rw [← hu]
  refine ⟨?_, ?_, ?_⟩
  · intro hop
    refine input_of_perform (s.taking k) ?_
    rintro v type rfl
    exact hop (Opcode.eq_read_of_operation (Operation.eq_read_of_performs hperforms))
  · intro hop
    refine output_of_perform (s.taking k) ?_
    rintro text rfl
    exact hop (Opcode.eq_write_of_operation (Operation.eq_write_of_performs hperforms))
  · intro hprint hbreak
    refine diagnostics_of_perform (s.taking k) ?_
    rintro text rfl
    rcases Operation.eq_debugging_of_performs hperforms with ho | ho
    · exact hprint (Opcode.eq_debugPrint_of_operation ho)
    · exact hbreak (Opcode.eq_breakpoint_of_operation ho)

/-! ## The counter and the call stack -/

/-- What a completed instruction does to the counter and the call stack. -/
structure Proceeds (i : Instruction) (s t : State) : Prop where
  counter : ¬Redirects s.memory s.stack i → i.opcode ≠ .ret → t.counter = s.counter + 1
  calls : i.opcode ≠ .call → i.opcode ≠ .ret → t.calls = s.calls
  call : i.opcode = .call → t.calls = (s.counter + 1) :: s.calls
  ret : i.opcode = .ret → s.calls = t.counter :: t.calls

theorem proceeds_of_step? (hi : p.instructions[s.counter]? = some i) (h : step? p s = some o)
    (ht : o.completed? = some t) : Proceeds i s t := by
  cases o with
  | next t' =>
    cases ht
    refine ⟨(counter_of_step? hi h).2, ?_, fun hop => calls_of_call hi hop h,
      fun hop => calls_of_ret hi hop h⟩
    intro hcall hret
    rcases moves_of_step? hi h with ⟨-, hcalls⟩ | ⟨-, hcalls⟩ | ⟨hop, -⟩ | ⟨hop, -⟩
    · exact hcalls
    · exact hcalls
    · exact absurd hop hcall
    · exact absurd hop hret
  | exit code t' =>
    -- An exit is completed as well: the counter stands behind it.
    cases ht
    obtain ⟨j, n, hj, hop, -, -, -, hcounter, hcalls⟩ := exit_of_step? h
    rw [hi] at hj
    cases hj
    refine ⟨fun _ _ => hcounter, fun _ _ => hcalls, fun h => ?_, fun h => ?_⟩
    · exact absurd (hop.symm.trans h) (by decide)
    · exact absurd (hop.symm.trans h) (by decide)
  | fault cause t' => cases ht

/-! ## The footprint -/

/-- What an instruction that is completed does to the parts of the state, and what it leaves. -/
structure Footprint (i : Instruction) (s t : State) : Prop where
  /-- without an operation on frames, every frame is still there with the same names -/
  names : i.opcode ∉ Opcode.framing →
    ∀ site, (t.memory.frameAt? site).map Frame.names = (s.memory.frameAt? site).map Frame.names
  /-- without an operation on frames, every cell but the destination is as it was -/
  cells : i.opcode ∉ Opcode.framing → ∀ site name, ¬i.Assigns site name →
    t.memory.cellAt? site name = s.memory.cellAt? site name
  /-- a declaration adds one cell, which is unset -/
  declares : i.opcode = .defVar →
    ∃ v, i.args[0]? = some (.var v) ∧ s.memory.Declares v t.memory
  /-- an operation on whole frames moves them as they are -/
  moved : i.opcode ∈ Opcode.moving →
    ∀ site, t.memory.frameAt? site = s.memory.carried i.opcode site
  /-- a cell that held a value is unset only after a move from an unset cell -/
  reset : ∀ site before name y, i.opcode.origin? site = some before →
    s.memory.cellAt? before name = some (.holding y) → t.memory.cellAt? site name = some .unset →
    i.MovesUnset s.memory ∧ i.Assigns site name
  stack : i.opcode.operation.Restacks s.memory i s.stack t.stack
  control : Proceeds i s t
  input : i.opcode ≠ .read → t.input = s.input
  output : i.opcode ≠ .write → t.output = s.output
  diagnostics : i.opcode ≠ .debugPrint → i.opcode ≠ .breakpoint → t.diagnostics = s.diagnostics

/-- **The footprint of an instruction.** In any state of any program, an instruction that is
completed changes no more than its footprint. -/
theorem step?_footprint (hi : p.instructions[s.counter]? = some i) (h : step? p s = some o)
    (ht : o.completed? = some t) : Footprint i s t := by
  have hcontrol := proceeds_of_step? hi h ht
  obtain ⟨e, u, he, hu, rfl⟩ := exists_effect hi h ht
  -- The counter has moved on already, which neither the frames nor the data stack can tell.
  have htouches : Touches i s.memory u.memory := touches_of_effect (s := s.advanced) he hu
  have hstate := Outcome.state_of_completed? hu
  have hstack : i.opcode.operation.Restacks s.memory i s.stack u.stack :=
    restacks_of_decision (s := s.advanced) he hstate
  obtain ⟨hinput, houtput, hdiagnostics⟩ := channels_of_effect he hstate
  exact {
    names := htouches.names
    cells := fun hop _ _ hother => htouches.cells hop hother
    declares := htouches.declares
    moved := htouches.moved
    reset := fun _ _ _ _ => htouches.reset
    stack := hstack
    control := hcontrol
    input := hinput
    output := houtput
    diagnostics := hdiagnostics }

/-- One name in three frames, with a value in the global and in the local one, and a move of the
unset cell in the temporary frame to the global one. -/
def sameNamesProgram : Program :=
  ⟨#[{ opcode := .createFrame, args := [] },
    { opcode := .defVar, args := [.var ⟨.temporary, "x"⟩] },
    { opcode := .move, args := [.var ⟨.temporary, "x"⟩, .const (.int 2)] },
    { opcode := .pushFrame, args := [] },
    { opcode := .createFrame, args := [] },
    { opcode := .defVar, args := [.var ⟨.temporary, "x"⟩] },
    { opcode := .defVar, args := [.var ⟨.global, "x"⟩] },
    { opcode := .move, args := [.var ⟨.global, "x"⟩, .const (.int 1)] },
    { opcode := .move, args := [.var ⟨.global, "x"⟩, .var ⟨.temporary, "x"⟩] }], .empty⟩

/-- The state in which the last instruction of `sameNamesProgram` is carried out. -/
def sameNamesState : State :=
  stateAfter sameNamesProgram 8 (.initial { rest := [] } {} {})

/-- The global cell is unset again, for an unset cell was moved there, and the local cell of the
same name still holds its value. -/
theorem step?_footprint_sameNames :
    ∃ t, step? sameNamesProgram sameNamesState = some (.next t) ∧
      sameNamesState.memory.cellAt? .globals "x" = some (.holding (.int 1)) ∧
      t.memory.cellAt? .globals "x" = some .unset ∧
      sameNamesState.memory.cellAt? .temporary "x" = some .unset ∧
      t.memory.cellAt? (.stacked 0) "x" = some (.holding (.int 2)) ∧ t.stack = [] ∧
      t.counter = 9 := by
  have hfootprint := step?_footprint (p := sameNamesProgram) (s := sameNamesState) rfl rfl rfl
  obtain ⟨⟨-, w, hsource, hw⟩, -⟩ := hfootprint.reset .globals .globals "x" (.int 1) rfl rfl rfl
  cases hsource
  have hlocal := hfootprint.cells (by decide) (.stacked 0) "x" ?_
  · refine ⟨_, rfl, rfl, rfl, hw, hlocal, hfootprint.stack, ?_⟩
    refine hfootprint.control.counter ?_ (by decide)
    intro hredirects
    cases hredirects with
    | jump hop | call hop | jumpIf hop | stackJumpIf hop => cases hop
  · rintro ⟨-, v, hv, hsite, -⟩
    cases hv
    cases hsite

end Machine

end FrameCode
