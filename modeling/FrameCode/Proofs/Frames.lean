import FrameCode.Proofs.Histories
import FrameCode.Proofs.Steps
import Mathlib.Data.List.DropRight

/-!
# What a run does to the frames

An instruction reaches three frames: the global one, the top local one and the temporary one. It
stores into one of them or declares a variable there, it makes a new temporary frame, or it moves a
frame between the temporary place and the top of the stack. `Reshapes` lists these six ways once,
together with what each does to the peak of variables in the profile, and every invariant of the
frames comes from it by six short cases.

The one proved here is isolation. All but the top of the stack is out of reach, so a run that keeps
more than `d` frames on the stack leaves the bottom `d` as they are, whatever the names `LF` and
`TF` stand for in the meantime. Stacks are lists with the top first, and the bottom `d` frames of a
stack are the last `d` of the list, `locals.rtake d`.
-/

namespace FrameCode

open FrameCode.Checks

/-! ## Storing and looking up -/

theorem Frame.lookup_replace (name other : String) (x : Cell) (l : List (String × Cell)) :
    (replace name x l).lookup other =
      if other = name then (l.lookup name).map fun _ => x else l.lookup other := by
  induction l with
  | nil => simp [replace]
  | cons e rest ih =>
    obtain ⟨k, y⟩ := e
    have hhead : replace name x ((k, y) :: rest) =
        (k, if k = name then x else y) :: replace name x rest := by
      by_cases hk : k = name
      · simp [replace, hk]
      · simp [replace, hk]
    rw [hhead, lookup_cons_ite, lookup_cons_ite, lookup_cons_ite, ih]
    by_cases hother : other = name
    · by_cases hk : name = k
      · simp [hother, hk]
      · simp [hother, hk]
    · by_cases hk : other = k
      · have hne : k ≠ name := by
          rw [← hk]
          exact hother
        simp [hk, hne]
      · simp [hother, hk]

/-- A name that is assigned holds the new cell, if it is declared, and any other what it held. -/
theorem Frame.get?_set (f : Frame) (name other : String) (x : Cell) :
    (f.set name x).get? other =
      if other = name then (f.get? name).map fun _ => x else f.get? other :=
  lookup_replace name other x f.entries

theorem Memory.frame?_mapFrame (m : Memory) (kind : FrameName) (change : Frame → Frame) :
    (m.mapFrame kind change).frame? kind = (m.frame? kind).map change := by
  cases kind with
  | global => rfl
  | topLocal => simp [mapFrame, frame?, List.head?_modifyHead]
  | temporary => rfl

/-- A variable that is declared holds what was stored last. -/
theorem Memory.cell_store {m : Memory} {v : Variable} {c : Cell} (h : m.cell v = .ok c) (x : Cell) :
    (m.store v x).cell v = .ok x := by
  unfold cell frame at h ⊢
  rw [store, frame?_mapFrame]
  rcases hf : m.frame? v.frame with _ | f
  · rw [hf] at h
    cases h
  · rw [hf] at h
    rcases hy : f.get? v.name with _ | y
    · simp [hy] at h
    · simp [Frame.get?_set, hy]

end FrameCode

namespace FrameCode.Machine

variable {p : Program} {s t : State} {i : Instruction} {m m' : Memory} {a a' d : Nat}

/-! ## The ways to change the frames -/

/-- The ways in which an instruction changes the frames and the peak of variables in reach. Only
declaring and popping observe how many there are. -/
inductive Reshapes (m : Memory) (peak : Nat) : Memory → Nat → Prop
  | keep : Reshapes m peak m peak
  | store (v : Variable) (x : Cell) : Reshapes m peak (m.store v x) peak
  | declare (v : Variable) :
    Reshapes m peak (m.declare v) (max peak (m.declare v).variablesInReach)
  | create : Reshapes m peak m.createFrame peak
  | push : Reshapes m peak m.pushFrame peak
  | pop : Reshapes m peak m.popFrame (max peak m.popFrame.variablesInReach)

theorem perform_reshapes (s : State) (e : Effect) :
    Reshapes s.memory s.profile.peakVariables (s.perform e).state.memory
      (s.perform e).state.profile.peakVariables := by
  cases e with
  | store v x => exact .store v x
  | declare v => exact .declare v
  | createFrame => exact .create
  | pushFrame => exact .push
  | popFrame => exact .pop
  | read v ty =>
    -- Reading is the one use of a channel that ends in a frame, if it does not fail.
    unfold State.perform
    dsimp only
    split
    · exact .store v _
    · exact .keep
  | write | diagnose =>
    unfold State.perform
    dsimp only
    split
    · exact .keep
    · exact .keep
  | _ => exact .keep

/-- Taking values off the data stack and recording the instruction do not touch a frame, so what an
instruction does to the frames is what its effect does. -/
theorem carryOut_reshapes (p : Program) (s : State) (i : Instruction) :
    Reshapes s.memory s.profile.peakVariables (s.carryOut p i).state.memory
      (s.carryOut p i).state.profile.peakVariables := by
  unfold State.carryOut
  dsimp only
  split
  · exact .keep
  · rename_i e _
    have h := perform_reshapes (s.taking (decision p s i).taken) e
    split
    all_goals
      rename_i hperform
      rw [hperform] at h
      exact h

theorem reshapes_of_step? {o : Outcome} (h : step? p s = some o) :
    Reshapes s.memory s.profile.peakVariables o.state.memory o.state.profile.peakVariables := by
  obtain ⟨i, -, rfl⟩ := exists_of_step? h
  exact carryOut_reshapes p s.advanced i

/-! ## The bottom of the stack -/

/-- The bottom of a stack does not depend on its top. -/
theorem rtake_tail {α : Type} {l : List α} (h : d < l.length) : l.tail.rtake d = l.rtake d := by
  -- The bottom is what is left when the rest is dropped, and the head is dropped first.
  unfold List.rtake
  rw [List.drop_tail, List.length_tail]
  congr 1
  omega

/-- Changing a frame in reach changes the top of the stack at most. -/
theorem tail_locals_mapFrame (m : Memory) (kind : FrameName) (change : Frame → Frame) :
    (m.mapFrame kind change).locals.tail = m.locals.tail ∧
      (m.mapFrame kind change).locals.length = m.locals.length := by
  cases kind <;> simp [Memory.mapFrame]

theorem rtake_locals_mapFrame (kind : FrameName) (change : Frame → Frame)
    (hd : d < m.locals.length) : (m.mapFrame kind change).locals.rtake d = m.locals.rtake d := by
  obtain ⟨htail, hlength⟩ := tail_locals_mapFrame m kind change
  rw [← rtake_tail hd, ← htail, rtake_tail (by omega)]

/-- One change leaves the frames below the top alone. -/
theorem Reshapes.rtake_locals (h : Reshapes m a m' a') (hd : d < m.locals.length) :
    m'.locals.rtake d = m.locals.rtake d := by
  cases h with
  | keep => rfl
  | store v x => exact rtake_locals_mapFrame v.frame _ hd
  | declare v => exact rtake_locals_mapFrame v.frame _ hd
  | create => rfl
  | push =>
    -- The old stack is what lies below the frame that was pushed.
    unfold Memory.pushFrame
    split
    · rw [← rtake_tail (by rw [List.length_cons]; omega), List.tail_cons]
    · rfl
  | pop =>
    unfold Memory.popFrame
    split
    · rename_i f rest hlocals
      have hbelow := rtake_tail hd
      rw [hlocals, List.tail_cons] at hbelow
      rw [hlocals]
      exact hbelow
    · rfl

/-- From the `k`-th state of a run to the `n`-th, the bottom `d` frames stay what they are if there
are more than `d` at each state on the way. -/
theorem rtake_locals_stateAfter {k n : Nat} (hkn : k ≤ n)
    (hd : ∀ j, k ≤ j → j < n → d < (stateAfter p j s).memory.locals.length) :
    (stateAfter p n s).memory.locals.rtake d = (stateAfter p k s).memory.locals.rtake d := by
  induction n, hkn using Nat.le_induction with
  | base => rfl
  | succ n hkn ih =>
    have hbefore := ih fun j hkj hjn => hd j hkj (by omega)
    rcases history_succ p n s with ⟨hsame, -⟩ | ⟨o, hstep, hnext, -⟩
    · rw [hsame, hbefore]
    · rw [hnext, (reshapes_of_step? hstep).rtake_locals (hd n hkn (by omega)), hbefore]

/-! ## Pushing and popping -/

/-- Popping takes the top frame off the stack and makes it the temporary one. It fails if there is
none, and for no other reason. -/
theorem step?_popFrame (hi : p.instructions[s.counter]? = some i) (hop : i.opcode = .popFrame) :
    (∃ f rest t, s.memory.locals = f :: rest ∧ step? p s = some (.next t) ∧
      t.memory = ⟨s.memory.globals, rest, some f⟩) ∨
    s.memory.locals = [] ∧ ∃ cause t, step? p s = some (.fault cause t) := by
  rcases hlocals : s.memory.locals with _ | ⟨f, rest⟩
  · right
    have hd : decision p s.advanced i = ⟨0, .error (.missingFrame .topLocal)⟩ := by
      rw [decision, hop]
      simp [Opcode.operation, decisionAs, Decision.of, State.advanced, hlocals]
    exact ⟨rfl, _, _, step?_of_error hi hd⟩
  · left
    have hd : decision p s.advanced i = ⟨0, .ok .popFrame⟩ := by
      rw [decision, hop]
      simp [Opcode.operation, decisionAs, Decision.of, State.advanced, hlocals]
    refine ⟨f, rest, _, rfl, step?_of_next hi hd rfl, ?_⟩
    simp [State.completed, State.observing, State.taking, State.advanced, Memory.popFrame, hlocals]

/-- Pushing puts the temporary frame on the stack and leaves none. It fails if there is none, and
for no other reason. -/
theorem step?_pushFrame (hi : p.instructions[s.counter]? = some i) (hop : i.opcode = .pushFrame) :
    (∃ f t, s.memory.temporary = some f ∧ step? p s = some (.next t) ∧
      t.memory = ⟨s.memory.globals, f :: s.memory.locals, none⟩) ∨
    s.memory.temporary = none ∧ ∃ cause t, step? p s = some (.fault cause t) := by
  rcases htemporary : s.memory.temporary with _ | f
  · right
    have hd : decision p s.advanced i = ⟨0, .error (.missingFrame .temporary)⟩ := by
      rw [decision, hop]
      simp [Opcode.operation, decisionAs, Decision.of, State.advanced, htemporary]
    exact ⟨rfl, _, _, step?_of_error hi hd⟩
  · left
    have hd : decision p s.advanced i = ⟨0, .ok .pushFrame⟩ := by
      rw [decision, hop]
      simp [Opcode.operation, decisionAs, Decision.of, State.advanced, htemporary]
    refine ⟨f, _, rfl, step?_of_next hi hd rfl, ?_⟩
    simp [State.completed, State.taking, State.advanced, Memory.pushFrame, htemporary]

/-! ## Isolation -/

/-- **Frames below the top are out of reach.** In the run of any program from any state, the bottom
`d` frames of the stack are the same in two states, names and cells, if the stack holds more than
`d` frames in every state from the first on and before the second. A frame that is popped becomes
the temporary one as it was on top of the stack, and popping succeeds whenever there is one. A frame
that is pushed becomes the top one as it was in the temporary place, which is empty afterwards, and
popping it right away puts every frame back where it was. -/
theorem frames_isolated (p : Program) (s : State) :
    (∀ k n d, k ≤ n → (∀ j, k ≤ j → j < n → d < (stateAfter p j s).memory.locals.length) →
      (stateAfter p n s).memory.locals.rtake d = (stateAfter p k s).memory.locals.rtake d) ∧
    (∀ i, p.instructions[s.counter]? = some i → i.opcode = .popFrame →
      (∀ f rest, s.memory.locals = f :: rest → ∃ t, step? p s = some (.next t) ∧
        t.memory.locals = rest ∧ t.memory.temporary = some f) ∧
      ∀ t, step? p s = some (.next t) →
        ∃ f, s.memory.locals = f :: t.memory.locals ∧ t.memory.temporary = some f) ∧
    ∀ i t, p.instructions[s.counter]? = some i → i.opcode = .pushFrame →
      step? p s = some (.next t) →
      (∃ f, s.memory.temporary = some f ∧ t.memory.locals = f :: s.memory.locals ∧
        t.memory.temporary = none) ∧
      ∀ j, p.instructions[t.counter]? = some j → j.opcode = .popFrame →
        ∃ u, step? p t = some (.next u) ∧ u.memory = s.memory := by
  refine ⟨fun k n d => rtake_locals_stateAfter, ?_, ?_⟩
  · intro i hi hop
    rcases step?_popFrame hi hop with ⟨f, rest, t, hlocals, ht, hmemory⟩ | ⟨hnone, cause, t, ht⟩
    · rw [hlocals, ht]
      refine ⟨?_, ?_⟩
      · rintro _ _ ⟨rfl, rfl⟩
        exact ⟨t, rfl, by rw [hmemory], by rw [hmemory]⟩
      · rintro _ ⟨rfl⟩
        exact ⟨f, by rw [hmemory], by rw [hmemory]⟩
    · rw [hnone, ht]
      refine ⟨?_, ?_⟩
      · intro f rest hlocals
        cases hlocals
      · intro u hu
        cases hu
  · intro i t hi hop ht
    rcases step?_pushFrame hi hop with ⟨f, u, htemporary, hu, hmemory⟩ | ⟨-, cause, u, hu⟩
    · rw [hu] at ht
      cases ht
      refine ⟨⟨f, htemporary, by rw [hmemory], by rw [hmemory]⟩, ?_⟩
      intro j hj hpop
      -- The stack has the pushed frame on top, so popping takes it and leaves the old stack.
      rcases step?_popFrame hj hpop with ⟨g, rest, v, hlocals, hv, hback⟩ | ⟨hnone, -⟩
      · rw [hmemory] at hlocals hback
        cases hlocals
        refine ⟨v, hv, ?_⟩
        rw [hback, ← htemporary]
      · rw [hmemory] at hnone
        cases hnone
    · rw [hu] at ht
      cases ht

/-- A frame with a variable below a frame that gets one, is popped and is then pushed and popped
again. -/
def nestingProgram : Program :=
  ⟨#[{ opcode := .createFrame, args := [] },
    { opcode := .defVar, args := [.var ⟨.temporary, "a"⟩] },
    { opcode := .pushFrame, args := [] },
    { opcode := .createFrame, args := [] },
    { opcode := .pushFrame, args := [] },
    { opcode := .defVar, args := [.var ⟨.topLocal, "b"⟩] },
    { opcode := .popFrame, args := [] },
    { opcode := .pushFrame, args := [] },
    { opcode := .popFrame, args := [] }], .empty⟩

/-- The state of the nesting program after a number of steps. -/
def nestingState (n : Nat) : State :=
  stateAfter nestingProgram n (.initial { rest := [] } {} {})

/-- Declaring a variable in the upper frame and popping it leaves the frame below alone, the frame
that is popped becomes the temporary one, and pushing and popping it once more changes no frame. -/
theorem frames_isolated_nesting :
    (nestingState 5).memory.locals.length = 2 ∧
      (nestingState 7).memory.locals.rtake 1 = (nestingState 5).memory.locals.rtake 1 ∧
      (∃ t f, step? nestingProgram (nestingState 6) = some (.next t) ∧
        (nestingState 6).memory.locals = f :: t.memory.locals ∧
        t.memory.temporary = some f ∧ f.size = 1) ∧
      ∃ t u, step? nestingProgram (nestingState 7) = some (.next t) ∧
        t.memory.temporary = none ∧ step? nestingProgram t = some (.next u) ∧
        u.memory = (nestingState 7).memory := by
  obtain ⟨hbottom, -, -⟩ := frames_isolated nestingProgram (.initial { rest := [] } {} {})
  obtain ⟨-, hpopped, -⟩ := frames_isolated nestingProgram (nestingState 6)
  obtain ⟨-, -, hpushed⟩ := frames_isolated nestingProgram (nestingState 7)
  refine ⟨rfl, hbottom 5 7 1 (by decide) ?_, ?_, ?_⟩
  · intro j hj hj'
    obtain rfl | rfl : j = 5 ∨ j = 6 := by omega
    · decide
    · decide
  · obtain ⟨t, ht, hrest, htop⟩ := (hpopped _ rfl rfl).1 _ _ rfl
    exact ⟨t, _, ht, by rw [hrest]; rfl, htop, rfl⟩
  · obtain ⟨⟨f, -, -, hnone⟩, hback⟩ := hpushed _ _ rfl rfl rfl
    obtain ⟨u, hu, hmemory⟩ := hback _ rfl rfl
    exact ⟨_, u, rfl, hnone, hu, hmemory⟩

end FrameCode.Machine
