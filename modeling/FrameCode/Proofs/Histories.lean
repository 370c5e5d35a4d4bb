import FrameCode.Proofs.Runs

/-!
# The history of a run

A run goes from state to state until it ends, and there it stays. `stateAfter p n s` is where the
run from `s` has come when it was given `n` steps, and `completedWithin p n s` lists the places of
the instructions that it has completed by then, in the order in which they were. The instruction
that fails is the last of its run but not a completed one: its step leads to one more state and adds
nothing to the list.

So the states of a run, the one that it leaves included, are the states after some number of steps,
and a statement on all of them is one on all numbers. `history_succ` is what such a statement is
proved with: one step more does nothing if the run has ended, and otherwise it is what `step?` makes
of the state before. `stateAfter_of_steps` and `state_of_run?` tie histories to runs.
-/

namespace FrameCode.Machine

variable {p : Program} {s t : State} {f : Finish} {n : Nat}

namespace Outcome

/-- The state that an instruction leaves, whether or not the run goes on from it. -/
def state : Outcome → State
  | next s | exit _ s | fault _ s => s

/-- The places that an instruction at a place adds to those completed: its own, unless it fails. -/
def completedAt (place : Nat) : Outcome → List Nat
  | next _ | exit _ _ => [place]
  | fault _ _ => []

end Outcome

/-- The state of a run after a number of steps; a run that has ended stays where it is. -/
def stateAfter (p : Program) : Nat → State → State
  | 0, s => s
  | n + 1, s =>
    match step? p s with
    | none => s
    | some (.next t) => stateAfter p n t
    | some o => o.state

/-- The places of the instructions that a run completes in a number of steps, first to last. -/
def completedWithin (p : Program) : Nat → State → List Nat
  | 0, _ => []
  | n + 1, s =>
    match step? p s with
    | none => []
    | some (.next t) => s.counter :: completedWithin p n t
    | some o => o.completedAt s.counter

/-! ## One step more -/

/-- **One step more** changes nothing once the run has ended. Before that it is the step from the
state reached so far, and its place joins the completed ones unless it fails. -/
theorem history_succ (p : Program) (n : Nat) (s : State) :
    (stateAfter p (n + 1) s = stateAfter p n s ∧
      completedWithin p (n + 1) s = completedWithin p n s) ∨
    ∃ o, step? p (stateAfter p n s) = some o ∧ stateAfter p (n + 1) s = o.state ∧
      completedWithin p (n + 1) s =
        completedWithin p n s ++ o.completedAt (stateAfter p n s).counter := by
  -- The definitions take the first step off a run, and the lemma is about the last one.
  induction n generalizing s with
  | zero =>
    cases h : step? p s with
    | none => simp [stateAfter, completedWithin, h]
    | some o =>
      right
      refine ⟨o, h, ?_, ?_⟩
      · cases o <;> simp [stateAfter, h, Outcome.state]
      · cases o <;> simp [stateAfter, completedWithin, h, Outcome.completedAt]
  | succ n ih =>
    rw [stateAfter, stateAfter, completedWithin, completedWithin]
    cases h : step? p s with
    | none => simp
    | some o =>
      cases o with
      | next t => simpa using ih t
      | exit code t => simp
      | fault cause t => simp

/-! ## Histories and runs -/

/-- Steps that do not end the run lead to the state after as many. -/
theorem stateAfter_of_steps (h : Steps p n s t) : stateAfter p n s = t := by
  induction h with
  | refl s => rfl
  | cons hs _ ih =>
    rw [stateAfter, hs]
    exact ih

/-- A state that one step more changes is one that the run has come to without ending. -/
theorem steps_of_stateAfter_ne (h : stateAfter p (n + 1) s ≠ stateAfter p n s) :
    Steps p n s (stateAfter p n s) := by
  induction n generalizing s with
  | zero => exact .refl s
  | succ n ih =>
    rw [stateAfter, stateAfter] at h
    rw [stateAfter]
    rcases hs : step? p s with _ | _ | _ | _
    · simp [hs] at h
    · rename_i t
      simp only [hs] at h
      exact .cons hs (ih h)
    · simp [hs] at h
    · simp [hs] at h

/-- The state that a run leaves is the one after all its steps. -/
theorem state_of_run? (h : run? p n s = some f) : f.state = stateAfter p n s := by
  obtain ⟨g, hg, rfl⟩ := Option.map_eq_some_iff.mp h
  -- Flushing does not touch the state, so it is enough to follow the loop.
  rw [Finish.state_flushed]
  clear h
  induction n generalizing s with
  | zero => simp [loop?] at hg
  | succ n ih =>
    rw [loop?] at hg
    rw [stateAfter]
    split at hg
    · rename_i hs
      rw [hs]
      cases hg
      rfl
    · rename_i hs
      rw [hs]
      exact ih hg
    · rename_i hs
      rw [hs]
      cases hg
      rfl
    · rename_i hs
      rw [hs]
      cases hg
      rfl

end FrameCode.Machine
