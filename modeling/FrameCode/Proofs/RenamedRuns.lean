import FrameCode.Proofs.Causes
import FrameCode.Proofs.Histories
import FrameCode.Proofs.Renaming
import FrameCode.Proofs.Steps
import Mathlib.Logic.Equiv.Basic

/-!
# Runs under new names

A program and the same program under new names do the same, step by step. Names are looked up in
frames and in the table of labels and nowhere else, and nothing that is looked up depends on what
the names are. `Corresponds` relates two checks one of which is made under new names: both succeed
or both fail, and the causes are the same up to the names in them. Every check of an instruction is
a sequence of such checks (`decisionAs_renamed`), and performing what they decide on preserves
`Renamed`, the relation between the states of the two machines.

What a breakpoint writes does tell the names. In a program with breakpoints the diagnostics are
therefore left aside, and they must take any number of bytes for the runs to be the same.
-/

namespace FrameCode

open FrameCode.Checks

variable {r : Renaming}

/-! ## Checks under new names -/

/-- Two checks with results that are related, or with one cause up to the names in it. -/
inductive Corresponds (r : Renaming) {α α' : Type} (rel : α → α' → Prop) :
    Except Cause α → Except Cause α' → Prop
  | ok {a : α} {a' : α'} (h : rel a a') : Corresponds r rel (.ok a) (.ok a')
  | error (cause : Cause) : Corresponds r rel (.error cause) (.error (cause.rename r))

namespace Corresponds

variable {α α' β β' : Type} {rel : α → α' → Prop} {rel' : β → β' → Prop}

theorem bind {x : Except Cause α} {x' : Except Cause α'} {f : α → Except Cause β}
    {f' : α' → Except Cause β'} (hx : Corresponds r rel x x')
    (hf : ∀ a a', rel a a' → Corresponds r rel' (f a) (f' a')) :
    Corresponds r rel' (x >>= f) (x' >>= f') := by
  cases hx with
  | ok h => exact hf _ _ h
  | error cause => exact .error cause

theorem map {x : Except Cause α} {x' : Except Cause α'} {g : α → β} {g' : α' → β'}
    (hx : Corresponds r rel x x') (hg : ∀ a a', rel a a' → rel' (g a) (g' a')) :
    Corresponds r rel' (x.map g) (x'.map g') := by
  cases hx with
  | ok h => exact .ok (hg _ _ h)
  | error cause => exact .error cause

/-- A check whose causes name nothing corresponds to itself. -/
theorem refl {x : Except Cause α} (hx : FailsOnly (fun c => c.rename r = c) x) :
    Corresponds r Eq x x := by
  cases x with
  | ok a => exact .ok rfl
  | error cause =>
    have hcause : Corresponds r (@Eq α) (.error cause) (.error (cause.rename r)) := .error cause
    rw [hx cause rfl] at hcause
    exact hcause

end Corresponds

/-- Operators know no names. -/
theorem Cause.rename_of_operator {c : Cause} (h : c.OfOperator) : c.rename r = c := by
  cases c with
  | undefinedLabel | redefinedVariable | undefinedVariable | missingValue => exact h.elim
  | _ => rfl

namespace Memory

variable {m m' : Memory}

theorem Renamed.frame (h : Renamed r m m') (kind : FrameName) :
    Corresponds r (Frame.Renamed r) (m.frame kind) (m'.frame kind) := by
  have hframe := h.frame? kind
  unfold Memory.frame
  generalize m.frame? kind = o at hframe ⊢
  generalize m'.frame? kind = o' at hframe ⊢
  cases hframe with
  | none => exact .error (.missingFrame kind)
  | some hf => exact .ok hf

theorem Renamed.cell (h : Renamed r m m') (v : Variable) :
    Corresponds r Eq (m.cell v) (m'.cell (v.rename r)) := by
  apply (h.frame v.frame).bind
  intro f f' hf
  have hget : f'.get? (v.rename r).name = f.get? v.name := hf.get? v.name
  rw [hget]
  rcases f.get? v.name with _ | x
  · exact .error (.undefinedVariable v)
  · exact .ok rfl

theorem Renamed.value (h : Renamed r m m') (v : Variable) :
    Corresponds r Eq (m.value v) (m'.value (v.rename r)) := by
  apply (h.cell v).bind
  rintro x _ rfl
  cases x with
  | holding x => exact .ok rfl
  | unset => exact .error (.missingValue v)

end Memory

namespace Machine

variable {aside : Prop} {p p' : Program} {s s' : State} {m m' : Memory}

/-! ## Fetching operands -/

theorem argument_renamed (i : Instruction) (n : Nat) :
    Corresponds r (fun a a' => a' = a.rename r) (argument i n) (argument (i.rename r) n) := by
  have hargs : (i.rename r).args[n]? = i.args[n]?.map (Operand.rename r) := List.getElem?_map
  unfold argument
  rw [hargs]
  rcases i.args[n]? with _ | a
  · exact .error .invalidOperand
  · exact .ok rfl

theorem variableArgument_renamed (i : Instruction) (n : Nat) :
    Corresponds r (fun v v' => v' = v.rename r) (variableArgument i n)
      (variableArgument (i.rename r) n) := by
  apply (argument_renamed i n).bind
  rintro a _ rfl
  cases a with
  | var v => exact .ok rfl
  | const | label | type => exact .error .invalidOperand

theorem labelArgument_renamed (i : Instruction) (n : Nat) :
    Corresponds r (fun name name' => name' = r.onLabels name) (labelArgument i n)
      (labelArgument (i.rename r) n) := by
  apply (argument_renamed i n).bind
  rintro a _ rfl
  cases a with
  | label name => exact .ok rfl
  | const | var | type => exact .error .invalidOperand

theorem typeArgument_renamed (i : Instruction) (n : Nat) :
    Corresponds r Eq (typeArgument i n) (typeArgument (i.rename r) n) := by
  apply (argument_renamed i n).bind
  rintro a _ rfl
  cases a with
  | type t => exact .ok rfl
  | const | var | label => exact .error .invalidOperand

theorem cellArgument_renamed (hm : Memory.Renamed r m m') (i : Instruction) (n : Nat) :
    Corresponds r Eq (cellArgument m i n) (cellArgument m' (i.rename r) n) := by
  apply (argument_renamed i n).bind
  rintro a _ rfl
  cases a with
  | var v => exact hm.cell v
  | const c => exact .ok rfl
  | label | type => exact .error .invalidOperand

theorem valueArgument_renamed (hm : Memory.Renamed r m m') (i : Instruction) (n : Nat) :
    Corresponds r Eq (valueArgument m i n) (valueArgument m' (i.rename r) n) := by
  apply (argument_renamed i n).bind
  rintro a _ rfl
  cases a with
  | var v => exact hm.value v
  | const c => exact .ok rfl
  | label | type => exact .error .invalidOperand

theorem destination_renamed (hm : Memory.Renamed r m m') (i : Instruction) :
    Corresponds r (fun v v' => v' = v.rename r) (destination m i)
      (destination m' (i.rename r)) := by
  apply (variableArgument_renamed i 0).bind
  rintro v _ rfl
  apply (hm.cell v).bind
  rintro x _ rfl
  exact .ok rfl

theorem target_renamed (hp : RenamedProgram r p p') (i : Instruction) :
    Corresponds r Eq (target p i) (target p' (i.rename r)) := by
  apply (labelArgument_renamed i 0).bind
  rintro name _ rfl
  rw [hp.labels]
  rcases p.labels.resolve? name with _ | place
  · exact .error (.undefinedLabel name)
  · exact .ok rfl

/-! ## Values -/

theorem binary_renamed (f : BinaryOperator) (a b : Value) :
    Corresponds r Eq (f.eval a b) (f.eval a b) :=
  .refl ((f.eval_failsOnly a b).mono fun _ => Cause.rename_of_operator)

theorem unary_renamed (f : UnaryOperator) (a : Value) : Corresponds r Eq (f.eval a) (f.eval a) :=
  .refl ((f.eval_failsOnly a).mono fun _ => Cause.rename_of_operator)

theorem equals_renamed (a b : Value) :
    Corresponds r Eq (Operator.equals a b) (Operator.equals a b) :=
  .refl ((Operator.equals_failsOnly a b).mono fun _ => Cause.rename_of_operator)

theorem setChar_renamed (a b c : Value) :
    Corresponds r Eq (Operator.setChar a b c) (Operator.setChar a b c) :=
  .refl ((Operator.setChar_failsOnly a b c).mono fun _ => Cause.rename_of_operator)

theorem exitCode_renamed (v : Value) : Corresponds r Eq (exitCode v) (exitCode v) := by
  apply Corresponds.refl
  unfold exitCode
  split
  · split
    · exact failsOnly_ok _
    · exact failsOnly_error rfl
  · exact failsOnly_error rfl

/-! ## States under new names -/

/-- Two outputs for diagnostics. If the texts of breakpoints are left aside they take everything,
and otherwise they are the same. -/
structure DiagnosticsAlike (aside : Prop) (o o' : Output) : Prop where
  limit : o'.limit = o.limit
  refusesFlush : o'.refusesFlush = o.refusesFlush
  unlimited : aside → o.limit = none
  written : ¬aside → o'.written = o.written

/-- Two states that are the same up to the names in their frames. -/
structure Renamed (r : Renaming) (aside : Prop) (s s' : State) : Prop where
  counter : s'.counter = s.counter
  memory : Memory.Renamed r s.memory s'.memory
  calls : s'.calls = s.calls
  stack : s'.stack = s.stack
  profile : s'.profile = s.profile
  input : s'.input = s.input
  output : s'.output = s.output
  diagnostics : DiagnosticsAlike aside s.diagnostics s'.diagnostics

/-- The effect on the variable under its new name. -/
def Effect.rename (r : Renaming) : Effect → Effect
  | .store v x => .store (v.rename r) x
  | .declare v => .declare (v.rename r)
  | .read v t => .read (v.rename r) t
  | e => e

/-- Two effects that are the same up to names, or two texts of a breakpoint. -/
inductive EffectRenamed (r : Renaming) (aside : Prop) : Effect → Effect → Prop
  | same (e : Effect) : EffectRenamed r aside e (e.rename r)
  | dump (h : aside) (text text' : String) :
    EffectRenamed r aside (.diagnose text) (.diagnose text')

/-- Two decisions that take as many values and come to the same up to names. -/
structure DecisionRenamed (r : Renaming) (aside : Prop) (d d' : Decision) : Prop where
  taken : d'.taken = d.taken
  verdict : Corresponds r (EffectRenamed r aside) d.verdict d'.verdict

theorem DecisionRenamed.of {x x' : Except Cause Effect}
    (h : Corresponds r (EffectRenamed r aside) x x') :
    DecisionRenamed r aside (.of x) (.of x') :=
  ⟨rfl, h⟩

theorem ok_renamed (e : Effect) :
    Corresponds r (EffectRenamed r aside) (.ok e) (.ok (e.rename r)) :=
  .ok (.same e)

theorem ok_jump_renamed (place : Nat) (taken : Bool) :
    Corresponds r (EffectRenamed r aside) (.ok (jumpEffect place taken))
      (.ok (jumpEffect place taken)) := by
  unfold jumpEffect
  split
  · exact ok_renamed (.jump place)
  · exact ok_renamed .nothing

/-! ## Decisions under new names -/

namespace DecisionRenamed

/-- Both machines have a temporary frame, or neither has one. -/
theorem pushFrame (hm : Memory.Renamed r s.memory s'.memory) (i : Instruction) :
    DecisionRenamed r aside (decisionAs p s i .pushFrame)
      (decisionAs p' s' (i.rename r) .pushFrame) := by
  apply DecisionRenamed.of
  have htemporary := hm.temporary
  generalize s.memory.temporary = f at htemporary ⊢
  generalize s'.memory.temporary = f' at htemporary ⊢
  cases htemporary with
  | none => exact .error (.missingFrame .temporary)
  | some _ => exact ok_renamed .pushFrame

theorem popFrame (hm : Memory.Renamed r s.memory s'.memory) (i : Instruction) :
    DecisionRenamed r aside (decisionAs p s i .popFrame)
      (decisionAs p' s' (i.rename r) .popFrame) := by
  apply DecisionRenamed.of
  have hlocals := hm.locals
  generalize s.memory.locals = fs at hlocals ⊢
  generalize s'.memory.locals = fs' at hlocals ⊢
  cases hlocals with
  | nil => exact .error (.missingFrame .topLocal)
  | cons _ _ => exact ok_renamed .popFrame

/-- A new name is taken exactly if the old one is, so a redefinition is found in both. -/
theorem declare (hm : Memory.Renamed r s.memory s'.memory) (i : Instruction) :
    DecisionRenamed r aside (decisionAs p s i .declare)
      (decisionAs p' s' (i.rename r) .declare) := by
  apply DecisionRenamed.of
  apply (variableArgument_renamed i 0).bind
  rintro v _ rfl
  apply (hm.frame v.frame).bind
  intro f f' hf
  have hcontains : f'.contains (v.rename r).name = f.contains v.name := hf.contains v.name
  rw [hcontains]
  by_cases htaken : f.contains v.name = true
  · rw [if_pos htaken, if_pos htaken]
    exact .error (.redefinedVariable v)
  · rw [if_neg htaken, if_neg htaken]
    exact ok_renamed (.declare v)

theorem call (hp : RenamedProgram r p p') (i : Instruction) :
    DecisionRenamed r aside (decisionAs p s i .call) (decisionAs p' s' (i.rename r) .call) := by
  apply DecisionRenamed.of
  apply (target_renamed hp i).bind
  rintro place _ rfl
  exact ok_renamed (.call place)

theorem comeBack (hcalls : s'.calls = s.calls) (i : Instruction) :
    DecisionRenamed r aside (decisionAs p s i .comeBack)
      (decisionAs p' s' (i.rename r) .comeBack) := by
  apply DecisionRenamed.of
  rw [hcalls]
  rcases s.calls with _ | ⟨place, rest⟩
  · exact .error .callStackEmpty
  · exact ok_renamed (.comeBack place)

theorem move (hm : Memory.Renamed r s.memory s'.memory) (i : Instruction) :
    DecisionRenamed r aside (decisionAs p s i .move) (decisionAs p' s' (i.rename r) .move) := by
  apply DecisionRenamed.of
  apply (destination_renamed hm i).bind
  rintro v _ rfl
  apply (cellArgument_renamed hm i 1).bind
  rintro x _ rfl
  exact ok_renamed (.store v x)

theorem typeOf (hm : Memory.Renamed r s.memory s'.memory) (i : Instruction) :
    DecisionRenamed r aside (decisionAs p s i .typeOf)
      (decisionAs p' s' (i.rename r) .typeOf) := by
  apply DecisionRenamed.of
  apply (destination_renamed hm i).bind
  rintro v _ rfl
  apply (cellArgument_renamed hm i 1).bind
  rintro x _ rfl
  exact ok_renamed (.store v (.holding (.string x.typeText)))

theorem unary (hm : Memory.Renamed r s.memory s'.memory) (i : Instruction) (f : UnaryOperator) :
    DecisionRenamed r aside (decisionAs p s i (.unary f))
      (decisionAs p' s' (i.rename r) (.unary f)) := by
  apply DecisionRenamed.of
  apply (destination_renamed hm i).bind
  rintro v _ rfl
  apply (valueArgument_renamed hm i 1).bind
  rintro a _ rfl
  apply (unary_renamed f a).bind
  rintro x _ rfl
  exact ok_renamed (.store v (.holding x))

theorem binary (hm : Memory.Renamed r s.memory s'.memory) (i : Instruction) (f : BinaryOperator) :
    DecisionRenamed r aside (decisionAs p s i (.binary f))
      (decisionAs p' s' (i.rename r) (.binary f)) := by
  apply DecisionRenamed.of
  apply (destination_renamed hm i).bind
  rintro v _ rfl
  apply (valueArgument_renamed hm i 1).bind
  rintro a _ rfl
  apply (valueArgument_renamed hm i 2).bind
  rintro b _ rfl
  apply (binary_renamed f a b).bind
  rintro x _ rfl
  exact ok_renamed (.store v (.holding x))

theorem setChar (hm : Memory.Renamed r s.memory s'.memory) (i : Instruction) :
    DecisionRenamed r aside (decisionAs p s i .setChar)
      (decisionAs p' s' (i.rename r) .setChar) := by
  apply DecisionRenamed.of
  apply (destination_renamed hm i).bind
  rintro v _ rfl
  apply (valueArgument_renamed hm i 0).bind
  rintro a _ rfl
  apply (valueArgument_renamed hm i 1).bind
  rintro b _ rfl
  apply (valueArgument_renamed hm i 2).bind
  rintro c _ rfl
  apply (setChar_renamed a b c).bind
  rintro x _ rfl
  exact ok_renamed (.store v (.holding x))

theorem read (hm : Memory.Renamed r s.memory s'.memory) (i : Instruction) :
    DecisionRenamed r aside (decisionAs p s i .read) (decisionAs p' s' (i.rename r) .read) := by
  apply DecisionRenamed.of
  apply (destination_renamed hm i).bind
  rintro v _ rfl
  apply (typeArgument_renamed i 1).bind
  rintro t _ rfl
  by_cases ht : t = .nil
  · rw [if_pos ht, if_pos ht]
    exact .error .invalidOperand
  · rw [if_neg ht, if_neg ht]
    exact ok_renamed (.read v t)

/-- An operation on the value of its one operand. -/
theorem ofValue (hm : Memory.Renamed r s.memory s'.memory) (i : Instruction)
    {f : Value → Except Cause Effect}
    (hf : ∀ x, Corresponds r (EffectRenamed r aside) (f x) (f x)) :
    DecisionRenamed r aside (.of (valueArgument s.memory i 0 >>= f))
      (.of (valueArgument s'.memory (i.rename r) 0 >>= f)) := by
  apply DecisionRenamed.of
  apply (valueArgument_renamed hm i 0).bind
  rintro x _ rfl
  exact hf x

theorem exit (hm : Memory.Renamed r s.memory s'.memory) (i : Instruction) :
    DecisionRenamed r aside (decisionAs p s i .exit) (decisionAs p' s' (i.rename r) .exit) := by
  refine ofValue hm i fun x => ?_
  apply (exitCode_renamed x).bind
  rintro code _ rfl
  exact ok_renamed (.exit code)

theorem pop (hm : Memory.Renamed r s.memory s'.memory) (hstack : s'.stack = s.stack)
    (i : Instruction) :
    DecisionRenamed r aside (decisionAs p s i .pop) (decisionAs p' s' (i.rename r) .pop) := by
  have hv := destination_renamed hm i
  unfold decisionAs
  rw [hstack]
  generalize destination s.memory i = x at hv ⊢
  generalize destination s'.memory (i.rename r) = x' at hv ⊢
  cases hv with
  | error cause => exact .of (.error cause)
  | ok hv =>
    subst hv
    rcases s.stack with _ | ⟨x, rest⟩
    · exact .of (.error .dataStackUnderflow)
    · exact ⟨rfl, ok_renamed (.store _ (.holding x))⟩

theorem stackUnary (hstack : s'.stack = s.stack) (i : Instruction) (f : UnaryOperator) :
    DecisionRenamed r aside (decisionAs p s i (.stackUnary f))
      (decisionAs p' s' (i.rename r) (.stackUnary f)) := by
  unfold decisionAs
  rw [hstack]
  rcases s.stack with _ | ⟨x, rest⟩
  · exact .of (.error .dataStackUnderflow)
  · refine ⟨rfl, (unary_renamed f x).map ?_⟩
    rintro y _ rfl
    exact .same (.push y)

theorem stackBinary (hstack : s'.stack = s.stack) (i : Instruction) (f : BinaryOperator) :
    DecisionRenamed r aside (decisionAs p s i (.stackBinary f))
      (decisionAs p' s' (i.rename r) (.stackBinary f)) := by
  unfold decisionAs
  rw [hstack]
  rcases s.stack with _ | ⟨right, _ | ⟨left, rest⟩⟩
  · exact .of (.error .dataStackUnderflow)
  · exact .of (.error .dataStackUnderflow)
  · refine ⟨rfl, (binary_renamed f left right).map ?_⟩
    rintro x _ rfl
    exact .same (.push x)

theorem jump (hp : RenamedProgram r p p') (i : Instruction) :
    DecisionRenamed r aside (decisionAs p s i .jump) (decisionAs p' s' (i.rename r) .jump) := by
  apply DecisionRenamed.of
  apply (target_renamed hp i).bind
  rintro place _ rfl
  exact ok_renamed (.jump place)

/-- A label is resolved and two values are compared. -/
theorem compared (hp : RenamedProgram r p p') (i : Instruction) (whenEqual : Bool) (a b : Value) :
    Corresponds r (EffectRenamed r aside)
      (do
        let place ← target p i
        return jumpEffect place ((← Operator.equals a b) == whenEqual))
      (do
        let place ← target p' (i.rename r)
        return jumpEffect place ((← Operator.equals a b) == whenEqual)) := by
  apply (target_renamed hp i).bind
  rintro place _ rfl
  apply (equals_renamed a b).bind
  rintro equal _ rfl
  exact ok_jump_renamed place (equal == whenEqual)

theorem jumpIf (hp : RenamedProgram r p p') (hm : Memory.Renamed r s.memory s'.memory)
    (i : Instruction) (whenEqual : Bool) :
    DecisionRenamed r aside (decisionAs p s i (.jumpIf whenEqual))
      (decisionAs p' s' (i.rename r) (.jumpIf whenEqual)) := by
  apply DecisionRenamed.of
  apply (valueArgument_renamed hm i 1).bind
  rintro a _ rfl
  apply (valueArgument_renamed hm i 2).bind
  rintro b _ rfl
  exact compared hp i whenEqual a b

theorem stackJumpIf (hp : RenamedProgram r p p') (hstack : s'.stack = s.stack) (i : Instruction)
    (whenEqual : Bool) :
    DecisionRenamed r aside (decisionAs p s i (.stackJumpIf whenEqual))
      (decisionAs p' s' (i.rename r) (.stackJumpIf whenEqual)) := by
  unfold decisionAs
  rw [hstack]
  rcases s.stack with _ | ⟨right, _ | ⟨left, rest⟩⟩
  · exact .of (.error .dataStackUnderflow)
  · exact .of (.error .dataStackUnderflow)
  · exact ⟨rfl, compared hp i whenEqual left right⟩

end DecisionRenamed

/-- **Decisions under new names.** Whatever an operation looks up is the same up to names, and so is
what it decides on. -/
theorem decisionAs_renamed (hp : RenamedProgram r p p') (hs : Renamed r aside s s')
    (i : Instruction) (o : Operation) (ho : o = .breakpoint → aside) :
    DecisionRenamed r aside (decisionAs p s i o) (decisionAs p' s' (i.rename r) o) := by
  have hm := hs.memory
  cases o with
  | createFrame => exact .of (ok_renamed .createFrame)
  | clear => exact .of (ok_renamed .clear)
  | mark => exact .of (ok_renamed .nothing)
  | pushFrame => exact .pushFrame hm i
  | popFrame => exact .popFrame hm i
  | declare => exact .declare hm i
  | call => exact .call hp i
  | comeBack => exact .comeBack hs.calls i
  | move => exact .move hm i
  | typeOf => exact .typeOf hm i
  | unary f => exact .unary hm i f
  | binary f => exact .binary hm i f
  | setChar => exact .setChar hm i
  | read => exact .read hm i
  | push => exact .ofValue hm i fun x => ok_renamed (.push x)
  | write => exact .ofValue hm i fun x => ok_renamed (.write x.text)
  | debugPrint => exact .ofValue hm i fun x => ok_renamed (.diagnose x.text)
  | exit => exact .exit hm i
  | pop => exact .pop hm hs.stack i
  | stackUnary f => exact .stackUnary hs.stack i f
  | stackBinary f => exact .stackBinary hs.stack i f
  | jump => exact .jump hp i
  | jumpIf whenEqual => exact .jumpIf hp hm i whenEqual
  | stackJumpIf whenEqual => exact .stackJumpIf hp hs.stack i whenEqual
  | breakpoint =>
    -- The dumps list the variables by name, and they are the one thing that differs.
    exact .of (.ok (.dump (ho rfl) s.dump s'.dump))

/-! ## Performing -/

/-- Two outcomes of the same kind. -/
inductive OutcomeRenamed (r : Renaming) (aside : Prop) : Outcome → Outcome → Prop
  | next {s s' : State} (h : Renamed r aside s s') : OutcomeRenamed r aside (.next s) (.next s')
  | exit {s s' : State} (code : Nat) (h : Renamed r aside s s') :
    OutcomeRenamed r aside (.exit code s) (.exit code s')
  | fault {s s' : State} (cause : Cause) (h : Renamed r aside s s') :
    OutcomeRenamed r aside (.fault cause s) (.fault (cause.rename r) s')

/-- Writing to diagnostics that are alike comes to the same, and they stay alike. The texts may
differ if they are left aside. -/
theorem DiagnosticsAlike.write {o o' : Output} (h : DiagnosticsAlike aside o o')
    {text text' : String} (htext : ¬aside → text' = text) :
    (o'.write text').1 = (o.write text).1 ∧
      DiagnosticsAlike aside (o.write text).2 (o'.write text').2 := by
  by_cases haside : aside
  · have hlimit := h.unlimited haside
    have hlimit' : o'.limit = none := h.limit.trans hlimit
    rw [Output.write_of_unlimited hlimit, Output.write_of_unlimited hlimit']
    exact ⟨rfl, h.limit, h.refusesFlush, fun _ => hlimit, fun hnot => absurd haside hnot⟩
  · have hsame : o' = o := by
      cases o
      cases o'
      cases h.limit
      cases h.refusesFlush
      cases h.written haside
      rfl
    rw [hsame, htext haside]
    refine ⟨rfl, rfl, rfl, fun h => absurd h haside, fun _ => rfl⟩

theorem perform_diagnose_renamed (hs : Renamed r aside s s') {text text' : String}
    (htext : ¬aside → text' = text) :
    OutcomeRenamed r aside (s.perform (.diagnose text)) (s'.perform (.diagnose text')) := by
  obtain ⟨hresult, halike⟩ := hs.diagnostics.write htext
  unfold State.perform
  dsimp only
  rcases hwrite : s.diagnostics.write text with ⟨result, after⟩
  rcases hwrite' : s'.diagnostics.write text' with ⟨result', after'⟩
  rw [hwrite, hwrite'] at hresult halike
  cases hresult
  rcases result with reason | _
  · exact .fault (.channel reason) { hs with diagnostics := halike }
  · exact .next { hs with diagnostics := halike }

theorem observing_renamed (hs : Renamed r aside s s') (hm : Memory.Renamed r m m') :
    Renamed r aside (s.observing m) (s'.observing m') := by
  refine { hs with memory := hm, profile := ?_ }
  show s'.profile.observe m'.variablesInReach = s.profile.observe m.variablesInReach
  rw [hs.profile, hm.variablesInReach]

/-- Performing an effect and the effect under new names. -/
theorem perform_renamed {e e' : Effect} (hs : Renamed r aside s s')
    (he : EffectRenamed r aside e e') : OutcomeRenamed r aside (s.perform e) (s'.perform e') := by
  cases he with
  | dump haside text text' => exact perform_diagnose_renamed hs fun hnot => absurd haside hnot
  | same =>
    cases e with
    | nothing => exact .next hs
    | store v x => exact .next { hs with memory := hs.memory.store v x }
    | declare v => exact .next (observing_renamed hs (hs.memory.declare v))
    | createFrame => exact .next { hs with memory := hs.memory.createFrame }
    | pushFrame => exact .next { hs with memory := hs.memory.pushFrame }
    | popFrame => exact .next (observing_renamed hs hs.memory.popFrame)
    | push x => exact .next { hs with stack := congrArg (x :: ·) hs.stack }
    | clear => exact .next { hs with stack := rfl }
    | jump place => exact .next { hs with counter := rfl }
    | call place =>
      refine .next { hs with counter := rfl, calls := ?_ }
      show s'.counter :: s'.calls = s.counter :: s.calls
      rw [hs.counter, hs.calls]
    | comeBack place =>
      exact .next { hs with counter := rfl, calls := congrArg List.tail hs.calls }
    | read v ty =>
      unfold State.perform Effect.rename
      dsimp only
      rw [hs.input]
      rcases s.input.readLine with ⟨reason | line, input⟩
      · exact .fault (.channel reason) { hs with input := rfl }
      · exact .next { hs with input := rfl, memory := hs.memory.store v _ }
    | write text =>
      unfold State.perform Effect.rename
      dsimp only
      rw [hs.output]
      rcases s.output.write text with ⟨reason | _, output⟩
      · exact .fault (.channel reason) { hs with output := rfl }
      · exact .next { hs with output := rfl }
    | diagnose text => exact perform_diagnose_renamed hs fun _ => rfl
    | exit code => exact .exit code hs

/-! ## Steps -/

theorem taking_renamed (hs : Renamed r aside s s') (k : Nat) :
    Renamed r aside (s.taking k) (s'.taking k) :=
  { hs with stack := congrArg (List.drop k) hs.stack }

/-- The profile looks at the opcode, the order and the place of an instruction, and not at its
operands. -/
theorem completed_renamed (hs : Renamed r aside s s') (i : Instruction) :
    Renamed r aside (s.completed i) (s'.completed (i.rename r)) :=
  { hs with profile := congrArg (Profile.record · i) hs.profile }

theorem carryOut_renamed (hp : RenamedProgram r p p') (hs : Renamed r aside s s') (i : Instruction)
    (hbreak : i.opcode = .breakpoint → aside) :
    OutcomeRenamed r aside (s.carryOut p i) (s'.carryOut p' (i.rename r)) := by
  obtain ⟨htaken, hverdict⟩ : DecisionRenamed r aside (decision p s i)
      (decision p' s' (i.rename r)) :=
    decisionAs_renamed hp hs i _ fun ho => hbreak (Opcode.eq_breakpoint_of_operation ho)
  unfold State.carryOut
  dsimp only
  rw [htaken]
  generalize (decision p s i).verdict = x at hverdict ⊢
  generalize (decision p' s' (i.rename r)).verdict = x' at hverdict ⊢
  cases hverdict with
  | error cause => exact .fault cause (taking_renamed hs _)
  | ok he =>
    have hperform := perform_renamed (taking_renamed hs (decision p s i).taken) he
    dsimp only
    generalize (s.taking _).perform _ = o at hperform ⊢
    generalize (s'.taking _).perform _ = o' at hperform ⊢
    cases hperform with
    | next h => exact .next (completed_renamed h i)
    | exit code h => exact .exit code (completed_renamed h i)
    | fault cause h => exact .fault cause h

/-- **One step under new names.** -/
theorem step?_renamed (hp : RenamedProgram r p p') (hs : Renamed r aside s s')
    (hbreak : ∀ (n : Nat) i, p.instructions[n]? = some i → i.opcode = .breakpoint → aside) :
    Option.Rel (OutcomeRenamed r aside) (step? p s) (step? p' s') := by
  have hfetch : p'.instructions[s'.counter]? =
      p.instructions[s.counter]?.map (Instruction.rename r) := by
    rw [hs.counter, hp.instructions]
  rcases hi : p.instructions[s.counter]? with _ | i
  · rw [hi] at hfetch
    rw [step?_eq_none hi, step?_eq_none hfetch]
    exact .none
  · rw [hi] at hfetch
    rw [step?_of_instruction hi, step?_of_instruction hfetch]
    have hadvanced : Renamed r aside s.advanced s'.advanced :=
      { hs with counter := congrArg (· + 1) hs.counter }
    exact .some (carryOut_renamed hp hadvanced i (hbreak s.counter i hi))

/-! ## Runs -/

/-- Two ends with the same exit code, or with the same error up to the name in it. -/
structure FinishRenamed (r : Renaming) (aside : Prop) (f f' : Finish) : Prop where
  result : f'.result = f.result.mapError (Fault.rename r)
  state : Renamed r aside f.state f'.state

theorem stateAfter_renamed (hp : RenamedProgram r p p') (hs : Renamed r aside s s')
    (hbreak : ∀ (n : Nat) i, p.instructions[n]? = some i → i.opcode = .breakpoint → aside)
    (n : Nat) : Renamed r aside (stateAfter p n s) (stateAfter p' n s') := by
  induction n generalizing s s' with
  | zero => exact hs
  | succ n ih =>
    have hstep := step?_renamed hp hs hbreak
    rw [stateAfter, stateAfter]
    generalize step? p s = o at hstep ⊢
    generalize step? p' s' = o' at hstep ⊢
    cases hstep with
    | none => exact hs
    | some ho =>
      cases ho with
      | next h => exact ih h
      | exit code h => exact h
      | fault cause h => exact h

theorem loop?_renamed (hp : RenamedProgram r p p') (hs : Renamed r aside s s')
    (hbreak : ∀ (n : Nat) i, p.instructions[n]? = some i → i.opcode = .breakpoint → aside)
    (fuel : Nat) : Option.Rel (FinishRenamed r aside) (loop? p fuel s) (loop? p' fuel s') := by
  induction fuel generalizing s s' with
  | zero => exact .none
  | succ fuel ih =>
    have hstep := step?_renamed hp hs hbreak
    rw [loop?, loop?, hs.counter]
    generalize step? p s = o at hstep ⊢
    generalize step? p' s' = o' at hstep ⊢
    cases hstep with
    | none => exact .some ⟨rfl, hs⟩
    | some ho =>
      cases ho with
      | next h => exact ih h
      | exit code h => exact .some ⟨rfl, h⟩
      | fault cause h => exact .some ⟨rfl, h⟩

/-- Flushing depends on the outputs, and an error it gives names nothing. -/
theorem FinishRenamed.flushed {f f' : Finish} (h : FinishRenamed r aside f f') :
    FinishRenamed r aside f.flushed f'.flushed := by
  have houtput : f'.state.output.flush = f.state.output.flush := by rw [h.state.output]
  have hdiagnostics : f'.state.diagnostics.flush = f.state.diagnostics.flush := by
    unfold Output.flush
    rw [h.state.diagnostics.refusesFlush]
  have hplace : f'.state.place = f.state.place := by
    unfold State.place
    rw [h.state.counter]
  refine ⟨?_, ?_⟩
  · unfold Finish.flushed
    rw [houtput, hdiagnostics, hplace, h.result]
    rcases f.result with e | code
    · exact h.result
    · dsimp only [Except.mapError]
      split
      · rfl
      · rfl
      · exact h.result
  · rw [Finish.state_flushed, Finish.state_flushed]
    exact h.state

/-- Whether a list of instructions has breakpoints, whose texts tell the names. -/
def HasBreakpoint (is : List Instruction) : Prop :=
  ∃ i ∈ is, i.opcode = .breakpoint

theorem renamed_initial (r : Renaming) (input : Input) (output : Output) {diagnostics : Output}
    (h : aside → diagnostics.limit = none) :
    Renamed r aside (.initial input output diagnostics) (.initial input output diagnostics) where
  counter := rfl
  memory := Memory.renamed_empty r
  calls := rfl
  stack := rfl
  profile := rfl
  input := rfl
  output := rfl
  diagnostics := ⟨rfl, rfl, h, fun _ => rfl⟩

/-- **Names are opaque.** A program is accepted under new names exactly if it is accepted. Its runs
are then in the same state up to the names in the frames after any number of steps, and they end
with the same exit code or with the same error up to the name in it. If the program has breakpoints
the diagnostics are left aside and take any number of bytes. -/
theorem names_opaque (r : Renaming) (is : List Instruction) :
    ((∃ p', Program.ofInstructions (is.map (Instruction.rename r)) = .ok p') ↔
      ∃ p, Program.ofInstructions is = .ok p) ∧
    ∀ p p', Program.ofInstructions is = .ok p →
      Program.ofInstructions (is.map (Instruction.rename r)) = .ok p' →
      ∀ input output diagnostics, (HasBreakpoint is → Output.limit diagnostics = none) →
        (∀ n, Renamed r (HasBreakpoint is)
          (stateAfter p n (.initial input output diagnostics))
          (stateAfter p' n (.initial input output diagnostics))) ∧
        ∀ fuel, Option.Rel (FinishRenamed r (HasBreakpoint is))
          (run? p fuel (.initial input output diagnostics))
          (run? p' fuel (.initial input output diagnostics)) := by
  refine ⟨ofInstructions_rename_isOk_iff r is, ?_⟩
  intro p p' hp hp' input output diagnostics hlimit
  have hrenamed := renamedProgram_of_ofInstructions hp hp'
  have hinitial := renamed_initial r input output hlimit
  have hbreak : ∀ (n : Nat) i, p.instructions[n]? = some i → i.opcode = .breakpoint →
      HasBreakpoint is := by
    intro n i hi hop
    rw [Program.getElem?_ofInstructions hp] at hi
    obtain ⟨j, hj, rfl⟩ := Option.map_eq_some_iff.mp hi
    exact ⟨j, List.mem_of_getElem? hj, hop⟩
  refine ⟨stateAfter_renamed hrenamed hinitial hbreak, ?_⟩
  intro fuel
  have hloop := loop?_renamed hrenamed hinitial hbreak fuel
  unfold run?
  generalize loop? p fuel _ = o at hloop ⊢
  generalize loop? p' fuel _ = o' at hloop ⊢
  cases hloop with
  | none => exact .none
  | some h => exact .some h.flushed

/-- Two variables, one of which is assigned, and a label with the name of the other one. -/
def twoVariables : List Instruction :=
  [{ opcode := .defVar, args := [.var ⟨.global, "a"⟩] },
    { opcode := .defVar, args := [.var ⟨.global, "b"⟩] },
    { opcode := .move, args := [.var ⟨.global, "a"⟩, .const (.int 1)] },
    { opcode := .label, args := [.label "b"] },
    { opcode := .write, args := [.var ⟨.global, "b"⟩] }]

/-- The names of the two variables exchanged, and those of the labels with them. -/
def exchanging : Renaming where
  onVariables := Equiv.swap "a" "b"
  onLabels := Equiv.swap "a" "b"
  variables_injective := Equiv.injective _
  labels_injective := Equiv.injective _

/-- The names change their order, and the variable without a value is the other one. -/
theorem names_opaque_exchanged :
    ∃ p p' f f', Program.ofInstructions twoVariables = .ok p ∧
      Program.ofInstructions (twoVariables.map (Instruction.rename exchanging)) = .ok p' ∧
      run? p 5 (.initial { rest := [] } {} {}) = some f ∧
      run? p' 5 (.initial { rest := [] } {} {}) = some f' ∧
      f.result = .error ⟨.missingValue ⟨.global, "b"⟩, 4⟩ ∧
      f'.result = .error ⟨.missingValue ⟨.global, "a"⟩, 4⟩ ∧
      f.state.memory.globals.entries = [("a", .holding (.int 1)), ("b", .unset)] ∧
      Renamed exchanging (HasBreakpoint twoVariables) f.state f'.state := by
  obtain ⟨haccepted, hopaque⟩ := names_opaque exchanging twoVariables
  let p : Program := ⟨(Program.number twoVariables).toArray, ⟨[("b", 3)]⟩⟩
  have hp : Program.ofInstructions twoVariables = .ok p := rfl
  obtain ⟨p', hp'⟩ := haccepted.mpr ⟨p, hp⟩
  obtain ⟨-, hruns⟩ := hopaque p p' hp hp' { rest := [] } {} {} fun _ => rfl
  obtain ⟨f, hf, hresult, hglobals⟩ : ∃ f, run? p 5 (.initial { rest := [] } {} {}) = some f ∧
      f.result = .error ⟨.missingValue ⟨.global, "b"⟩, 4⟩ ∧
      f.state.memory.globals.entries = [("a", .holding (.int 1)), ("b", .unset)] :=
    ⟨_, rfl, rfl, rfl⟩
  have hrun := hruns 5
  rw [hf] at hrun
  generalize hf' : run? p' 5 (.initial { rest := [] } {} {}) = o' at hrun
  cases hrun with
  | some h =>
    refine ⟨p, p', f, _, hp, hp', hf, hf', hresult, ?_, hglobals, h.state⟩
    rw [h.result, hresult]
    decide

end Machine

end FrameCode
