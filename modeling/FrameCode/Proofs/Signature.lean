import FrameCode.Proofs.Causes
import FrameCode.Proofs.Steps

/-!
# Instructions that fit their signature

An instruction is well-formed if its operands are as many as its opcode takes, each of them of the
kind expected at its position, and if it does not read a nil. The machine fetches operands by
position, in each operation in a way of its own, and it never looks at the table of signatures. That
the two agree is the point of this file: a well-formed instruction is never found to have malformed
operands (`decision_failsOnly`), whatever the state it meets.

Opcodes with one operation have one signature (`Opcode.signature_eq`), so the argument goes through
the operations and not through the opcodes: `Suits` is all that is known of an instruction there.
-/

namespace FrameCode

open FrameCode.Checks

/-- The operands of an instruction are those that its opcode takes, and a type to read is not
nil. -/
structure Instruction.WellFormed (i : Instruction) : Prop where
  count : i.args.length = i.opcode.arity
  fits : ∀ (n : Nat) (a : Operand) (kind : OperandClass), i.args[n]? = some a →
    i.opcode.signature[n]? = some kind → a.fits kind = true
  readable : i.opcode = .read → i.args[1]? ≠ some (.type .nil)

/-- The kinds of operands that an operation fetches. -/
def Operation.signature : Operation → List OperandClass
  | .move | .unary _ | .typeOf => [.var, .symbol]
  | .declare | .pop => [.var]
  | .call | .mark | .jump | .stackJumpIf _ => [.label]
  | .push | .write | .exit | .debugPrint => [.symbol]
  | .binary _ | .setChar => [.var, .symbol, .symbol]
  | .read => [.var, .type]
  | .jumpIf _ => [.label, .symbol, .symbol]
  | _ => []

theorem Opcode.signature_eq (op : Opcode) : op.signature = op.operation.signature := by
  cases op <;> rfl

namespace Instruction.WellFormed

variable {i : Instruction}

/-- Every position of the signature holds an operand of the kind expected there. -/
theorem exists_operand (h : i.WellFormed) {n : Nat} {kind : OperandClass}
    (hk : i.opcode.signature[n]? = some kind) : ∃ a, i.args[n]? = some a ∧ a.fits kind = true := by
  have hn : n < i.opcode.signature.length := (List.getElem?_eq_some_iff.mp hk).1
  have hlt : n < i.args.length := by
    rw [h.count]
    exact hn
  have ha : i.args[n]? = some i.args[n] := List.getElem?_eq_getElem hlt
  exact ⟨_, ha, h.fits n _ kind ha hk⟩

/-- Well-formedness is a matter of the opcode and the operands alone. -/
theorem congr {j : Instruction} (h : i.WellFormed) (hop : j.opcode = i.opcode)
    (hargs : j.args = i.args) : j.WellFormed where
  count := by
    rw [hop, hargs]
    exact h.count
  fits := by
    rw [hop, hargs]
    exact h.fits
  readable := by
    rw [hop, hargs]
    exact h.readable

end Instruction.WellFormed

namespace Machine

variable {p : Program} {s : State} {i : Instruction} {o : Operation} {n : Nat}

/-! ## Fetching operands of the kind expected -/

theorem argument_of_operand {a : Operand} (h : i.args[n]? = some a) : argument i n = .ok a := by
  unfold argument
  rw [h]

theorem exists_variableArgument (h : i.WellFormed) (hk : i.opcode.signature[n]? = some .var) :
    ∃ v, variableArgument i n = .ok v := by
  obtain ⟨a, ha, hfit⟩ := h.exists_operand hk
  unfold variableArgument
  rw [argument_of_operand ha]
  cases a with
  | var v => exact ⟨v, rfl⟩
  | _ => cases hfit

theorem exists_labelArgument (h : i.WellFormed) (hk : i.opcode.signature[n]? = some .label) :
    ∃ name, labelArgument i n = .ok name := by
  obtain ⟨a, ha, hfit⟩ := h.exists_operand hk
  unfold labelArgument
  rw [argument_of_operand ha]
  cases a with
  | label name => exact ⟨name, rfl⟩
  | _ => cases hfit

theorem exists_typeArgument (h : i.WellFormed) (hk : i.opcode.signature[n]? = some .type) :
    ∃ t, i.args[n]? = some (.type t) ∧ typeArgument i n = .ok t := by
  obtain ⟨a, ha, hfit⟩ := h.exists_operand hk
  unfold typeArgument
  rw [argument_of_operand ha]
  cases a with
  | type t => exact ⟨t, ha, rfl⟩
  | _ => cases hfit

/-- A position that takes a variable or a constant. -/
def SymbolAt (i : Instruction) (n : Nat) : Prop :=
  i.opcode.signature[n]? = some .symbol ∨ i.opcode.signature[n]? = some .var

theorem exists_symbolArgument (h : i.WellFormed) (hk : SymbolAt i n) :
    (∃ c, argument i n = .ok (.const c)) ∨ ∃ v, argument i n = .ok (.var v) := by
  rcases hk with hk | hk
  · obtain ⟨a, ha, hfit⟩ := h.exists_operand hk
    rw [argument_of_operand ha]
    cases a with
    | var v => exact .inr ⟨v, rfl⟩
    | const c => exact .inl ⟨c, rfl⟩
    | _ => cases hfit
  · obtain ⟨a, ha, hfit⟩ := h.exists_operand hk
    rw [argument_of_operand ha]
    cases a with
    | var v => exact .inr ⟨v, rfl⟩
    | _ => cases hfit

/-! ## Checks that never find malformed operands -/

/-- The causes other than malformed operands. -/
def MeaningOnly (c : Cause) : Prop :=
  c ≠ .invalidOperand

theorem meaningOnly_of_operator {c : Cause} (h : c.OfOperator) : MeaningOnly c := by
  rintro rfl
  exact h

theorem cell_meaningOnly (m : Memory) (v : Variable) : FailsOnly MeaningOnly (m.cell v) := by
  refine (m.cell_failsOnly v).mono ?_
  rintro c (rfl | rfl) h
  · cases h
  · cases h

theorem value_meaningOnly (m : Memory) (v : Variable) : FailsOnly MeaningOnly (m.value v) := by
  refine (m.value_failsOnly v).mono ?_
  rintro c (rfl | rfl | rfl) h
  · cases h
  · cases h
  · cases h

theorem cellArgument_meaningOnly (m : Memory) (h : i.WellFormed) (hk : SymbolAt i n) :
    FailsOnly MeaningOnly (cellArgument m i n) := by
  unfold cellArgument
  rcases exists_symbolArgument h hk with ⟨c, hc⟩ | ⟨v, hv⟩
  · rw [hc]
    exact failsOnly_ok _
  · rw [hv]
    exact cell_meaningOnly m v

theorem valueArgument_meaningOnly (m : Memory) (h : i.WellFormed) (hk : SymbolAt i n) :
    FailsOnly MeaningOnly (valueArgument m i n) := by
  unfold valueArgument
  rcases exists_symbolArgument h hk with ⟨c, hc⟩ | ⟨v, hv⟩
  · rw [hc]
    exact failsOnly_ok _
  · rw [hv]
    exact value_meaningOnly m v

theorem destination_meaningOnly (m : Memory) (h : i.WellFormed)
    (hk : i.opcode.signature[0]? = some .var) : FailsOnly MeaningOnly (destination m i) := by
  obtain ⟨v, hv⟩ := exists_variableArgument h hk
  unfold destination
  rw [hv, ok_bind]
  exact failsOnly_bind (cell_meaningOnly m v) fun _ _ => failsOnly_ok _

theorem target_meaningOnly (p : Program) (h : i.WellFormed)
    (hk : i.opcode.signature[0]? = some .label) : FailsOnly MeaningOnly (target p i) := by
  obtain ⟨name, hname⟩ := exists_labelArgument h hk
  unfold target
  rw [hname, ok_bind]
  split
  · exact failsOnly_ok _
  · exact failsOnly_error (by intro h; cases h)

theorem exitCode_meaningOnly (x : Value) : FailsOnly MeaningOnly (exitCode x) := by
  unfold exitCode
  split
  · split
    · exact failsOnly_ok _
    · exact failsOnly_error (by intro h; cases h)
  · exact failsOnly_error (by intro h; cases h)

theorem operator_meaningOnly {α : Type} {x : Except Cause α} (h : FailsOnly Cause.OfOperator x) :
    FailsOnly MeaningOnly x :=
  h.mono fun _ => meaningOnly_of_operator

/-! ## One operation after the other -/

/-- A well-formed instruction with the operands that an operation fetches. The opcode matters only
through its signature. -/
structure Suits (i : Instruction) (o : Operation) : Prop where
  wellFormed : i.WellFormed
  signature : i.opcode.signature = o.signature

theorem Suits.kind (h : Suits i o) {kind : OperandClass} (hk : o.signature[n]? = some kind) :
    i.opcode.signature[n]? = some kind := by
  rw [h.signature]
  exact hk

theorem Suits.destination (h : Suits i o) (hk : o.signature[0]? = some .var) (m : Memory) :
    FailsOnly MeaningOnly (destination m i) :=
  destination_meaningOnly m h.wellFormed (h.kind hk)

theorem Suits.cell (h : Suits i o) (hk : o.signature[n]? = some .symbol) (m : Memory) :
    FailsOnly MeaningOnly (cellArgument m i n) :=
  cellArgument_meaningOnly m h.wellFormed (.inl (h.kind hk))

theorem Suits.value (h : Suits i o) (hk : o.signature[n]? = some .symbol) (m : Memory) :
    FailsOnly MeaningOnly (valueArgument m i n) :=
  valueArgument_meaningOnly m h.wellFormed (.inl (h.kind hk))

theorem Suits.target (h : Suits i o) (hk : o.signature[0]? = some .label) (p : Program) :
    FailsOnly MeaningOnly (target p i) :=
  target_meaningOnly p h.wellFormed (h.kind hk)

/-- Frames are moved, and calls come back, without any operand. -/
theorem frames_meaningOnly (ho : o = .pushFrame ∨ o = .popFrame ∨ o = .comeBack) :
    FailsOnly MeaningOnly (decisionAs p s i o).verdict := by
  rcases ho with rfl | rfl | rfl
  all_goals
    simp only [decisionAs, Decision.of]
    split
    · exact failsOnly_ok _
    · exact failsOnly_error (by intro h; cases h)

theorem declare_meaningOnly (h : Suits i .declare) :
    FailsOnly MeaningOnly (decisionAs p s i .declare).verdict := by
  obtain ⟨v, hv⟩ := exists_variableArgument h.wellFormed (n := 0) (h.kind rfl)
  simp only [decisionAs, Decision.of, hv, ok_bind]
  refine failsOnly_bind ?_ fun f _ => ?_
  · unfold Memory.frame
    split
    · exact failsOnly_ok _
    · exact failsOnly_error (by intro h; cases h)
  · split
    · exact failsOnly_error (by intro h; cases h)
    · exact failsOnly_ok _

theorem move_meaningOnly (h : Suits i .move) :
    FailsOnly MeaningOnly (decisionAs p s i .move).verdict := by
  refine failsOnly_bind (h.destination rfl _) fun v _ => ?_
  exact failsOnly_bind (h.cell rfl _) fun x _ => failsOnly_ok _

theorem typeOf_meaningOnly (h : Suits i .typeOf) :
    FailsOnly MeaningOnly (decisionAs p s i .typeOf).verdict := by
  refine failsOnly_bind (h.destination rfl _) fun v _ => ?_
  exact failsOnly_bind (h.cell rfl _) fun x _ => failsOnly_ok _

theorem unary_meaningOnly {f : UnaryOperator} (h : Suits i (.unary f)) :
    FailsOnly MeaningOnly (decisionAs p s i (.unary f)).verdict := by
  refine failsOnly_bind (h.destination rfl _) fun v _ => ?_
  refine failsOnly_bind (h.value rfl _) fun a _ => ?_
  exact failsOnly_bind (operator_meaningOnly (f.eval_failsOnly a)) fun x _ => failsOnly_ok _

theorem binary_meaningOnly {f : BinaryOperator} (h : Suits i (.binary f)) :
    FailsOnly MeaningOnly (decisionAs p s i (.binary f)).verdict := by
  refine failsOnly_bind (h.destination rfl _) fun v _ => ?_
  refine failsOnly_bind (h.value rfl _) fun a _ => ?_
  refine failsOnly_bind (h.value rfl _) fun b _ => ?_
  exact failsOnly_bind (operator_meaningOnly (f.eval_failsOnly a b)) fun x _ => failsOnly_ok _

/-- The variable in the first position is fetched twice, as a destination and as a value. -/
theorem setChar_meaningOnly (h : Suits i .setChar) :
    FailsOnly MeaningOnly (decisionAs p s i .setChar).verdict := by
  refine failsOnly_bind (h.destination rfl _) fun v _ => ?_
  refine failsOnly_bind
    (valueArgument_meaningOnly _ h.wellFormed (.inr (h.kind rfl))) fun a _ => ?_
  refine failsOnly_bind (h.value rfl _) fun b _ => ?_
  refine failsOnly_bind (h.value rfl _) fun c _ => ?_
  refine failsOnly_bind (operator_meaningOnly (Operator.setChar_failsOnly a b c)) fun x _ => ?_
  exact failsOnly_ok _

/-- The destination is looked at before the stack, and each may fail. -/
theorem pop_meaningOnly (h : Suits i .pop) :
    FailsOnly MeaningOnly (decisionAs p s i .pop).verdict := by
  simp only [decisionAs]
  split
  · rename_i cause hcause
    exact failsOnly_error (h.destination rfl s.memory cause hcause)
  · exact failsOnly_error (by intro h; cases h)
  · exact failsOnly_ok _

/-- Nil is a type too, so that it may not be read is no matter of the signature. -/
theorem read_meaningOnly (h : Suits i .read) (hread : i.args[1]? ≠ some (.type .nil)) :
    FailsOnly MeaningOnly (decisionAs p s i .read).verdict := by
  obtain ⟨t, ha, ht⟩ := exists_typeArgument h.wellFormed (n := 1) (h.kind rfl)
  refine failsOnly_bind (h.destination rfl _) fun v _ => ?_
  rw [ht, ok_bind]
  split
  · rename_i hnil
    rw [hnil] at ha
    exact absurd ha hread
  · exact failsOnly_ok _

theorem stackUnary_meaningOnly {f : UnaryOperator} :
    FailsOnly MeaningOnly (decisionAs p s i (.stackUnary f)).verdict := by
  simp only [decisionAs]
  split
  · exact failsOnly_map (operator_meaningOnly (f.eval_failsOnly _))
  · exact failsOnly_error (by intro h; cases h)

theorem stackBinary_meaningOnly {f : BinaryOperator} :
    FailsOnly MeaningOnly (decisionAs p s i (.stackBinary f)).verdict := by
  simp only [decisionAs]
  split
  · exact failsOnly_map (operator_meaningOnly (f.eval_failsOnly _ _))
  · exact failsOnly_error (by intro h; cases h)

theorem jumpIf_meaningOnly {whenEqual : Bool} (h : Suits i (.jumpIf whenEqual)) :
    FailsOnly MeaningOnly (decisionAs p s i (.jumpIf whenEqual)).verdict := by
  refine failsOnly_bind (h.value rfl _) fun a _ => ?_
  refine failsOnly_bind (h.value rfl _) fun b _ => ?_
  refine failsOnly_bind (h.target rfl p) fun place _ => ?_
  refine failsOnly_bind (operator_meaningOnly (Operator.equals_failsOnly a b)) fun x _ => ?_
  exact failsOnly_ok _

theorem stackJumpIf_meaningOnly {whenEqual : Bool} (h : Suits i (.stackJumpIf whenEqual)) :
    FailsOnly MeaningOnly (decisionAs p s i (.stackJumpIf whenEqual)).verdict := by
  simp only [decisionAs]
  split
  · refine failsOnly_bind (h.target rfl p) fun place _ => ?_
    refine failsOnly_bind (operator_meaningOnly (Operator.equals_failsOnly _ _)) fun x _ => ?_
    exact failsOnly_ok _
  · exact failsOnly_error (by intro h; cases h)

/-- **Signatures match fetching.** A well-formed instruction fails, if it does, for what it means in
the state at hand, never for the shape of its operands. -/
theorem decision_failsOnly (h : i.WellFormed) (p : Program) (s : State) :
    FailsOnly MeaningOnly (decision p s i).verdict := by
  have hsuits : Suits i i.opcode.operation := ⟨h, i.opcode.signature_eq⟩
  have hreads : i.opcode.operation = .read → i.args[1]? ≠ some (.type .nil) :=
    fun ho => h.readable (Opcode.eq_read_of_operation ho)
  unfold decision
  generalize i.opcode.operation = o at hsuits hreads
  cases o with
  | createFrame | clear | mark | breakpoint => exact failsOnly_ok _
  | pushFrame | popFrame | comeBack => exact frames_meaningOnly (by simp)
  | call | jump => exact failsOnly_bind (hsuits.target rfl p) fun place _ => failsOnly_ok _
  | push | write | debugPrint =>
    exact failsOnly_bind (hsuits.value rfl s.memory) fun x _ => failsOnly_ok _
  | exit =>
    refine failsOnly_bind (hsuits.value rfl s.memory) fun x _ => ?_
    exact failsOnly_bind (exitCode_meaningOnly x) fun code _ => failsOnly_ok _
  | declare => exact declare_meaningOnly hsuits
  | move => exact move_meaningOnly hsuits
  | typeOf => exact typeOf_meaningOnly hsuits
  | unary f => exact unary_meaningOnly hsuits
  | binary f => exact binary_meaningOnly hsuits
  | setChar => exact setChar_meaningOnly hsuits
  | pop => exact pop_meaningOnly hsuits
  | read => exact read_meaningOnly hsuits (hreads rfl)
  | stackUnary f => exact stackUnary_meaningOnly
  | stackBinary f => exact stackBinary_meaningOnly
  | jumpIf whenEqual => exact jumpIf_meaningOnly hsuits
  | stackJumpIf whenEqual => exact stackJumpIf_meaningOnly hsuits

/-- A step of a program of well-formed instructions does not find malformed operands. -/
theorem step?_fault_meaningOnly {t : State} {cause : Cause}
    (hp : ∀ i ∈ p.instructions, i.WellFormed) (h : step? p s = some (.fault cause t)) :
    MeaningOnly cause := by
  obtain ⟨i, hi, h⟩ := exists_of_step? h
  have hwf : i.WellFormed := hp i (Array.mem_of_getElem? hi)
  rcases State.carryOut_eq_fault h with ⟨hv, -⟩ | ⟨e, -, he⟩
  · exact decision_failsOnly hwf p _ cause hv
  · rcases State.perform_eq_fault he with
      ⟨_, _, _, _, -, rfl, -⟩ | ⟨_, _, _, -, rfl, -⟩ | ⟨_, _, _, -, rfl, -⟩
    all_goals exact fun h => by cases h

end Machine

end FrameCode
