import FrameCode.Machine.Step

/-!
# Runs

A run repeats steps until the counter leaves the program, an exit instruction is reached or an
instruction fails. A run need not end, so it is given a number of steps that it may take, and there
is no result if they are used up.

When a run ends its outputs are flushed. A flush that fails makes a run that went well fail, at the
place before its counter; it does not hide an earlier error.
-/

namespace FrameCode.Machine

/-- How a run ended, and the state it left. -/
structure Finish where
  result : Except Fault Nat
  state : State

namespace Finish

/-- The end of a run once its outputs have been flushed. -/
def flushed (f : Finish) : Finish :=
  match f.result with
  | .error _ => f
  | .ok _ =>
    match f.state.output.flush, f.state.diagnostics.flush with
    | .error reason, _ => { f with result := .error ⟨.channel reason, f.state.place⟩ }
    | .ok _, .error reason => { f with result := .error ⟨.channel reason, f.state.place⟩ }
    | .ok _, .ok _ => f

end Finish

/-- The end of a run, before flushing, if the run takes at most the given number of steps. -/
def loop? (p : Program) : Nat → State → Option Finish
  | 0, _ => none
  | fuel + 1, s =>
    match step? p s with
    | none => some ⟨.ok 0, s⟩
    | some (.next s') => loop? p fuel s'
    | some (.exit code s') => some ⟨.ok code, s'⟩
    | some (.fault cause s') => some ⟨.error ⟨cause, s.counter⟩, s'⟩

/-- The end of a run from a state, if the run takes at most the given number of steps. -/
def run? (p : Program) (fuel : Nat) (s : State) : Option Finish :=
  (loop? p fuel s).map Finish.flushed

end FrameCode.Machine
