import FrameCode.Proofs.Programs
import FrameCode.Proofs.Runs
import FrameCode.Proofs.Signature
import FrameCode.Source.Load

/-!
# Programs that were loaded

Loading checks the operands of an instruction against the signature of its opcode. It fills as many
positions as the opcode has, from elements that name the positions, and drops positions that were
left empty. What has to be seen is that none is: there are as many elements as positions, and no
position is filled twice (`length_arguments`).

So all instructions of a loaded program are well-formed (`wellFormed_of_load`), and a run of it
never ends for malformed operands.
-/

namespace FrameCode.Source

open FrameCode.Checks FrameCode.Document

/-! ## Filling positions -/

theorem lt_of_position? {arity n : Nat} {tag : String} (h : position? arity tag = some n) :
    n < arity :=
  List.mem_range.mp (List.mem_of_find?_eq_some h)

/-- One element fills one position that was empty. -/
theorem fill_eq_ok {order arity : Nat} {found found' : List (Option Operand)} {e : Element}
    (h : fill order arity found e = .ok found') :
    ∃ n a, position? arity e.tag = some n ∧ found[n]?.bind id = none ∧
      argument order e = .ok a ∧ found' = found.set n (some a) := by
  unfold fill at h
  split at h
  · cases h
  · rename_i n hn
    split at h
    · cases h
    · rename_i hfree
      obtain ⟨a, ha, h⟩ := bind_eq_ok.mp h
      cases h
      refine ⟨n, a, hn, ?_, ha, rfl⟩
      rwa [Bool.not_eq_true, Option.isSome_eq_false_iff, Option.isNone_iff_eq_none] at hfree

theorem length_filterMap_set {α : Type} {l : List (Option α)} {n : Nat} (a : α)
    (h : l[n]? = some none) :
    ((l.set n (some a)).filterMap id).length = (l.filterMap id).length + 1 := by
  induction l generalizing n with
  | nil => cases h
  | cons x l ih =>
    cases n with
    | zero =>
      cases h
      rfl
    | succ n =>
      have h' := ih (n := n) h
      cases x with
      | none => exact h'
      | some y =>
        rw [List.set_cons_succ, List.filterMap_cons_some (id_eq _),
          List.filterMap_cons_some (id_eq _), List.length_cons, List.length_cons, h']

/-- The invariant of filling: the positions stay as many as they were, and after a number of
elements this number of them is filled. -/
def Filled (arity count : Nat) (found : List (Option Operand)) : Prop :=
  found.length = arity ∧ (found.filterMap id).length = count

theorem filled_replicate (arity : Nat) : Filled arity 0 (List.replicate arity none) := by
  refine ⟨List.length_replicate .., ?_⟩
  rw [List.length_eq_zero_iff, List.filterMap_eq_nil_iff]
  intro x hx
  exact (List.mem_replicate.mp hx).2

theorem filled_fill {order arity count : Nat} {found found' : List (Option Operand)} {e : Element}
    (hf : Filled arity count found) (h : fill order arity found e = .ok found') :
    Filled arity (count + 1) found' := by
  obtain ⟨n, a, hn, hfree, -, rfl⟩ := fill_eq_ok h
  have hlt : n < found.length := by
    rw [hf.1]
    exact lt_of_position? hn
  have hnone : found[n]? = some none := by
    rw [List.getElem?_eq_getElem hlt] at hfree ⊢
    rw [Option.bind_some, id_eq] at hfree
    rw [hfree]
  refine ⟨?_, ?_⟩
  · rw [List.length_set, hf.1]
  · rw [length_filterMap_set a hnone, hf.2]

/-- No position is left empty: the operands are as many as the opcode takes. -/
theorem length_arguments {order : Nat} {op : Opcode} {e : Element} {args : List Operand}
    (h : arguments order op e = .ok args) : args.length = op.arity := by
  unfold arguments at h
  dsimp only at h
  split at h
  · cases h
  · rename_i hcount
    obtain ⟨found, hfound, h⟩ := bind_eq_ok.mp h
    cases h
    -- There are as many elements as positions, each fills one of its own, and so all are filled.
    have hfilled := foldlM_counted (motive := Filled op.arity)
      (fun _ _ _ _ hf hfill => filled_fill hf hfill) (filled_replicate op.arity) hfound
    rw [hfilled.2, Nat.zero_add]
    exact Decidable.not_not.mp hcount

/-! ## Instructions -/

theorem fits_of_misfit? {args : List Operand} {kinds : List OperandClass}
    (h : misfit? args kinds = none) {n : Nat} {a : Operand} {kind : OperandClass}
    (ha : args[n]? = some a) (hk : kinds[n]? = some kind) : a.fits kind = true := by
  unfold misfit? at h
  rw [Option.map_eq_none_iff, List.findIdx?_eq_none_iff] at h
  have hmem : (a, kind) ∈ args.zip kinds :=
    List.mem_of_getElem? (List.getElem?_zip_eq_some.mpr ⟨ha, hk⟩)
  have hfit := h (a, kind) hmem
  rwa [Bool.not_eq_false'] at hfit

theorem validateArguments_eq_ok {order : Nat} {op : Opcode} {args : List Operand}
    (h : validateArguments order op args = .ok ()) :
    misfit? args op.signature = none ∧ ¬(op = .read ∧ args[1]? = some (.type .nil)) := by
  unfold validateArguments at h
  split at h
  · cases h
  · rename_i hfit
    split at h
    · cases h
    · rename_i hread
      exact ⟨hfit, hread⟩

/-- An instruction that is read from an element is well-formed. -/
theorem wellFormed_of_instruction {e : Element} {i : Instruction} (h : instruction e = .ok i) :
    i.WellFormed := by
  unfold instruction at h
  split at h
  · cases h
  · obtain ⟨text, -, h⟩ := bind_eq_ok.mp h
    obtain ⟨n, -, h⟩ := bind_eq_ok.mp h
    obtain ⟨op, -, h⟩ := bind_eq_ok.mp h
    obtain ⟨args, hargs, h⟩ := bind_eq_ok.mp h
    obtain ⟨_, hvalid, h⟩ := bind_eq_ok.mp h
    cases h
    obtain ⟨hfit, hread⟩ := validateArguments_eq_ok hvalid
    exact {
      count := length_arguments hargs
      fits := fun _ _ _ ha hk => fits_of_misfit? hfit ha hk
      readable := fun hop hnil => hread ⟨hop, hnil⟩ }

/-! ## Programs -/

theorem mem_of_mem_sorted {is js : List Instruction} (h : sorted is = .ok js) {i : Instruction}
    (hi : i ∈ js) : i ∈ is := by
  unfold sorted at h
  dsimp only at h
  split at h
  · cases h
  · cases h
    exact List.mem_mergeSort.mp hi

/-- The instructions of a loaded program are well-formed. -/
theorem wellFormed_of_load {text : String} {p : Program} (h : load text = .ok p) :
    ∀ i ∈ p.instructions, i.WellFormed := by
  unfold load at h
  split at h
  · rename_i root _
    -- Backwards: the program numbers a sorted list, whose entries come from elements.
    obtain ⟨js, hjs, hp⟩ := bind_eq_ok.mp h
    obtain ⟨_, -, hjs⟩ := bind_eq_ok.mp hjs
    obtain ⟨is, his, hjs⟩ := bind_eq_ok.mp hjs
    intro i hi
    obtain ⟨n, hn⟩ := Array.mem_iff_getElem?.mp hi
    rw [Program.getElem?_ofInstructions hp] at hn
    obtain ⟨j, hj, rfl⟩ := Option.map_eq_some_iff.mp hn
    obtain ⟨e, -, he⟩ := exists_of_mem_mapM his (mem_of_mem_sorted hjs (List.mem_of_getElem? hj))
    exact (wellFormed_of_instruction he).congr rfl rfl
  · cases h

end FrameCode.Source

namespace FrameCode.Machine

open FrameCode.Checks

/-! ## Running what was loaded -/

/-- The exit codes of the causes other than malformed operands. -/
theorem exitCode_mem_of_meaningOnly {c : Cause} (h : MeaningOnly c) :
    c.exitCode ∈ [52, 53, 54, 55, 56, 57, 58, 99] := by
  cases c with
  | invalidOperand => exact absurd rfl h
  | _ => simp [Cause.exitCode]

/-- **Loaded programs keep to their signatures.** No step of a run of a loaded program, however long
the run, finds malformed operands; so an error of such a run, be it of an instruction or of the
final flush, has one of the exit codes that are left. -/
theorem loaded_run_faults {text : String} {p : Program} (h : Source.load text = .ok p)
    (input : Input) (output diagnostics : Output) :
    (∀ n s cause t, Steps p n (.initial input output diagnostics) s →
      step? p s = some (.fault cause t) →
      cause ≠ .invalidOperand ∧ cause.exitCode ∈ [52, 53, 54, 55, 56, 57, 58, 99]) ∧
    ∀ f e, Ends p (.initial input output diagnostics) f → f.result = .error e →
      e.cause ≠ .invalidOperand ∧ e.exitCode ∈ [52, 53, 54, 55, 56, 57, 58, 99] := by
  have hstep : ∀ s cause t, step? p s = some (.fault cause t) → MeaningOnly cause :=
    fun _ _ _ hs => step?_fault_meaningOnly (Source.wellFormed_of_load h) hs
  refine ⟨?_, ?_⟩
  · intro n s cause t _ hs
    have hc := hstep s cause t hs
    exact ⟨hc, exitCode_mem_of_meaningOnly hc⟩
  · intro f e hends hresult
    have hc : MeaningOnly e.cause := by
      obtain ⟨n, s, g, -, hstop, rfl⟩ := ends_iff.mp hends
      rcases Finish.flushed_eq_error hresult with hg | ⟨_, _, -, rfl, -⟩
      · cases hstop with
        | left => cases hg
        | exit => cases hg
        | fault hs =>
          cases hg
          exact hstep _ _ _ hs
      · -- A flush that failed is a failure of a channel.
        intro hchannel
        cases hchannel
    exact ⟨hc, exitCode_mem_of_meaningOnly hc⟩

/-- A document with one instruction, which pops into a variable that was never declared. -/
def popDocument : String :=
  "<program language=\"IPPcode23\"><instruction order=\"1\" opcode=\"POPS\">"
    ++ "<arg1 type=\"var\">GF@x</arg1></instruction></program>"

/-- The program in `popDocument`. -/
def popProgram : Program :=
  ⟨#[{ opcode := .pops, args := [.var ⟨.global, "x"⟩], order := 1, index := 0 }], .empty⟩

theorem load_popDocument : Source.load popDocument = .ok popProgram :=
  eq_ok_of_toOption (by decide +kernel)

/-- The run of `popProgram` ends with an error, and its exit code is one of those. -/
theorem loaded_run_faults_popDocument :
    ∃ f e, Ends popProgram (.initial { rest := [] } {} {}) f ∧ f.result = .error e ∧
      e.cause = .undefinedVariable ⟨.global, "x"⟩ ∧
      e.exitCode ∈ [52, 53, 54, 55, 56, 57, 58, 99] := by
  have hends : Ends popProgram (.initial { rest := [] } {} {})
      ⟨.error ⟨.undefinedVariable ⟨.global, "x"⟩, 0⟩,
        State.advanced (.initial { rest := [] } {} {})⟩ := ⟨1, rfl⟩
  have hcodes := (loaded_run_faults load_popDocument { rest := [] } {} {}).2 _ _ hends rfl
  exact ⟨_, _, hends, rfl, rfl, hcodes.2⟩

end FrameCode.Machine
