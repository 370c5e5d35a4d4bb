import FrameCode.Machine.Run

/-!
# Runs as sequences of steps

`loop?` is given the number of steps that it may take. What a run is does not depend on that number,
and the statements about runs are made with three relations instead:

* `Steps p n s t`: `n` steps lead from `s` to `t`, and none of them ends the run;
* `Stops p s f`: the run stops at `s`, and this is how;
* `Ends p s f`: the run from `s` comes to an end, its outputs are flushed, and `f` is what is left.

`ends_iff` ties them to `run?`: a run ends if some number of steps leads to a state where it stops.
A machine does one thing in each state, so a run has one end at most (`Ends.unique`).
-/

namespace FrameCode.Machine

variable {p : Program} {s t u : State} {f g : Finish} {n m : Nat}

/-- A number of steps from one state to another, none of which ends the run. -/
inductive Steps (p : Program) : Nat → State → State → Prop
  | refl (s : State) : Steps p 0 s s
  | cons {n : Nat} {s t u : State} (h : step? p s = some (.next t)) (rest : Steps p n t u) :
    Steps p (n + 1) s u

/-- The run stops in a state: the counter has left the program, or the instruction there ends it. -/
inductive Stops (p : Program) : State → Finish → Prop
  | left {s : State} (h : step? p s = none) : Stops p s ⟨.ok 0, s⟩
  | exit {s t : State} {code : Nat} (h : step? p s = some (.exit code t)) : Stops p s ⟨.ok code, t⟩
  | fault {s t : State} {cause : Cause} (h : step? p s = some (.fault cause t)) :
    Stops p s ⟨.error ⟨cause, s.counter⟩, t⟩

/-- The run from a state comes to an end, and its outputs are flushed. -/
def Ends (p : Program) (s : State) (f : Finish) : Prop :=
  ∃ fuel, run? p fuel s = some f

/-! ## Steps -/

theorem Steps.single (h : step? p s = some (.next t)) : Steps p 1 s t :=
  .cons h (.refl t)

theorem Steps.trans (h : Steps p n s t) (h' : Steps p m t u) : Steps p (n + m) s u := by
  induction h with
  | refl s => rwa [Nat.zero_add]
  | cons hs _ ih =>
    rw [Nat.add_right_comm]
    exact .cons hs (ih h')

/-! ## Where a run stops -/

theorem Stops.unique (h : Stops p s f) (h' : Stops p s g) : f = g := by
  cases h with
  | left hs =>
    cases h' with
    | left => rfl
    | exit hs' => rw [hs] at hs'; cases hs'
    | fault hs' => rw [hs] at hs'; cases hs'
  | exit hs =>
    cases h' with
    | left hs' => rw [hs] at hs'; cases hs'
    | exit hs' => rw [hs] at hs'; cases hs'; rfl
    | fault hs' => rw [hs] at hs'; cases hs'
  | fault hs =>
    cases h' with
    | left hs' => rw [hs] at hs'; cases hs'
    | exit hs' => rw [hs] at hs'; cases hs'
    | fault hs' => rw [hs] at hs'; cases hs'; rfl

/-- A run does not go on from where it stops. -/
theorem Stops.not_next (h : Stops p s f) : step? p s ≠ some (.next t) := by
  intro hs
  cases h with
  | left h => rw [h] at hs; cases hs
  | exit h => rw [h] at hs; cases hs
  | fault h => rw [h] at hs; cases hs

theorem loop?_of_stops (h : Stops p s f) : loop? p 1 s = some f := by
  unfold loop?
  cases h with
  | left h => rw [h]
  | exit h => rw [h]
  | fault h => rw [h]

theorem loop?_of_steps (h : Steps p n s t) (hstop : Stops p t f) :
    loop? p (n + 1) s = some f := by
  induction h with
  | refl s => exact loop?_of_stops hstop
  | cons hs _ ih =>
    rw [loop?, hs]
    exact ih hstop

/-- The steps behind a run that ends within its fuel. The induction is on the fuel, one step for
each unit of it. -/
theorem exists_steps_of_loop? {fuel : Nat} (h : loop? p fuel s = some f) :
    ∃ n t, Steps p n s t ∧ Stops p t f := by
  induction fuel generalizing s with
  | zero => cases h
  | succ fuel ih =>
    rw [loop?] at h
    split at h
    · rename_i hs
      cases h
      exact ⟨0, s, .refl s, .left hs⟩
    · rename_i t hs
      obtain ⟨n, u, hsteps, hstop⟩ := ih h
      exact ⟨n + 1, u, .cons hs hsteps, hstop⟩
    · rename_i code t hs
      cases h
      exact ⟨0, s, .refl s, .exit hs⟩
    · rename_i cause t hs
      cases h
      exact ⟨0, s, .refl s, .fault hs⟩

/-! ## The end of a run -/

/-- A run that ended with an error before its outputs were flushed, or one that went well until a
flush failed; in the second case the error stands at the place before the counter. -/
theorem Finish.flushed_eq_error {e : Fault} (h : f.flushed.result = .error e) :
    f.result = .error e ∨
      ∃ code reason, f.result = .ok code ∧ e = ⟨.channel reason, f.state.place⟩ ∧
        (f.state.output.flush = .error reason ∨ f.state.diagnostics.flush = .error reason) := by
  unfold flushed at h
  split at h
  · exact .inl h
  · rename_i code hcode
    split at h
    · rename_i reason hflush
      cases h
      exact .inr ⟨code, reason, hcode, rfl, .inl hflush⟩
    · rename_i reason _ hflush
      cases h
      exact .inr ⟨code, reason, hcode, rfl, .inr hflush⟩
    · rw [hcode] at h
      cases h

/-- A run that is well once its outputs were flushed was well before. -/
theorem Finish.result_of_flushed_eq_ok {code : Nat} (h : f.flushed.result = .ok code) :
    f.result = .ok code := by
  unfold flushed at h
  split at h
  · exact h
  · split at h
    · cases h
    · cases h
    · exact h

/-- Flushing changes the result of a run at most, not the state that it leaves. -/
theorem Finish.state_flushed (f : Finish) : f.flushed.state = f.state := by
  unfold flushed
  split
  · rfl
  · split
    · rfl
    · rfl
    · rfl

/-- Two runs from one state that stop do so in the same way. -/
theorem Steps.stops_unique (h : Steps p n s t) (hstop : Stops p t f) (h' : Steps p m s u)
    (hstop' : Stops p u g) : f = g := by
  induction h generalizing m with
  | refl s =>
    cases h' with
    | refl => exact hstop.unique hstop'
    | cons hs _ => exact absurd hs hstop.not_next
  | cons hs _ ih =>
    cases h' with
    | refl => exact absurd hs hstop'.not_next
    | cons hs' rest' =>
      -- Both runs take the same first step, so what is left of them starts in one state.
      rw [hs] at hs'
      cases hs'
      exact ih hstop rest'

/-- A run ends if steps lead to a state where it stops. -/
theorem ends_iff : Ends p s f ↔ ∃ n t g, Steps p n s t ∧ Stops p t g ∧ f = g.flushed := by
  constructor
  · rintro ⟨fuel, h⟩
    obtain ⟨g, hg, rfl⟩ := Option.map_eq_some_iff.mp h
    obtain ⟨n, t, hsteps, hstop⟩ := exists_steps_of_loop? hg
    exact ⟨n, t, g, hsteps, hstop, rfl⟩
  · rintro ⟨n, t, g, hsteps, hstop, rfl⟩
    -- One unit of fuel for each step, and one to see that the run has stopped.
    refine ⟨n + 1, ?_⟩
    rw [run?, loop?_of_steps hsteps hstop]
    rfl

theorem Ends.unique (h : Ends p s f) (h' : Ends p s g) : f = g := by
  obtain ⟨n, t, f', hsteps, hstop, rfl⟩ := ends_iff.mp h
  obtain ⟨m, u, g', hsteps', hstop', rfl⟩ := ends_iff.mp h'
  rw [hsteps.stops_unique hstop hsteps' hstop']

end FrameCode.Machine
