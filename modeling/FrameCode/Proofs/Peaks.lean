import FrameCode.Proofs.Frames
import Mathlib.Order.Bounds.Basic

/-!
# The peak of variables

The profile of a run remembers the largest number of variables that were in reach at once, but the
number is looked at after declaring a variable and after popping a frame only. Two more instructions
change it: making a temporary frame, and pushing one. Neither can raise it. A new temporary frame is
empty, and a frame that is pushed was in reach before and covers the one below it. All others leave
every frame with the names it has. So no peak is missed (`peak_greatest`).

One change of the frames is `Reshapes.peak_eq`: if the peak is not behind, the peak afterwards is
the old one or the number in reach afterwards, whichever is larger. So the peak is never behind, and
after each step it is the larger of the two.
-/

namespace FrameCode

/-! ## Changes that do not raise the number of variables in reach -/

theorem Frame.size_set (f : Frame) (name : String) (x : Cell) : (f.set name x).size = f.size := by
  simp [size, set, replace]

namespace Memory

/-- Assigning leaves every frame with its names. -/
theorem variablesInReach_store (m : Memory) (v : Variable) (x : Cell) :
    (m.store v x).variablesInReach = m.variablesInReach := by
  unfold store mapFrame
  split
  · simp [variablesInReach, Frame.size_set]
  · rcases hlocals : m.locals with _ | ⟨f, rest⟩
    · simp [variablesInReach, hlocals]
    · simp [variablesInReach, hlocals, Frame.size_set]
  · rcases htemporary : m.temporary with _ | f
    · simp [variablesInReach, htemporary]
    · simp [variablesInReach, htemporary, Frame.size_set]

/-- A new temporary frame is empty, and the old one is out of reach. -/
theorem variablesInReach_createFrame_le (m : Memory) :
    m.createFrame.variablesInReach ≤ m.variablesInReach := by
  simp [variablesInReach, createFrame, Frame.size, Frame.empty]

/-- A frame that is pushed was in reach already, and it covers the one that was on top. -/
theorem variablesInReach_pushFrame_le (m : Memory) :
    m.pushFrame.variablesInReach ≤ m.variablesInReach := by
  unfold pushFrame
  split
  · rename_i f htemporary
    simp only [variablesInReach, htemporary, List.head?_cons, Option.map_some, Option.getD_some,
      Option.map_none, Option.getD_none]
    omega
  · exact Nat.le_refl _

end Memory

/-! ## The peak along a run -/

namespace Machine

variable {p : Program} {s : State} {m m' : Memory} {a a' n : Nat}

/-- A change brings the peak up to date, if it was so before. -/
theorem Reshapes.peak_eq (h : Reshapes m a m' a') (hm : m.variablesInReach ≤ a) :
    a' = max a m'.variablesInReach := by
  cases h with
  | keep => omega
  | store v x =>
    rw [Memory.variablesInReach_store]
    omega
  | declare v => rfl
  | create =>
    have hle := m.variablesInReach_createFrame_le
    omega
  | push =>
    have hle := m.variablesInReach_pushFrame_le
    omega
  | pop => rfl

/-- One step more brings the peak up to date with the state it leads to. -/
theorem peak_succ (hn : (stateAfter p n s).memory.variablesInReach
      ≤ (stateAfter p n s).profile.peakVariables) :
    (stateAfter p (n + 1) s).profile.peakVariables
      = max (stateAfter p n s).profile.peakVariables
          (stateAfter p (n + 1) s).memory.variablesInReach := by
  rcases history_succ p n s with ⟨hsame, -⟩ | ⟨o, hstep, hnext, -⟩
  · rw [hsame]
    omega
  · rw [hnext]
    exact (reshapes_of_step? hstep).peak_eq hn

/-- The peak is never behind the state it belongs to. -/
theorem variablesInReach_le_peak (hs : s.memory.variablesInReach ≤ s.profile.peakVariables)
    (n : Nat) : (stateAfter p n s).memory.variablesInReach
      ≤ (stateAfter p n s).profile.peakVariables := by
  induction n with
  | zero => exact hs
  | succ n ih =>
    have hpeak := peak_succ ih
    omega

/-- The peak in the profile is the largest number of variables in reach so far. The induction is on
the number of steps. -/
theorem isGreatest_peak (p : Program) (input : Input) (output diagnostics : Output) (n : Nat) :
    IsGreatest
      { reach | ∃ k ≤ n,
        (stateAfter p k (.initial input output diagnostics)).memory.variablesInReach = reach }
      (stateAfter p n (.initial input output diagnostics)).profile.peakVariables := by
  induction n with
  | zero =>
    -- Nothing is in reach at the start, and the peak is zero.
    refine ⟨⟨0, Nat.le_refl 0, rfl⟩, ?_⟩
    rintro reach ⟨k, hk, rfl⟩
    obtain rfl : k = 0 := by omega
    exact Nat.le_refl 0
  | succ n ih =>
    obtain ⟨⟨k, hk, hattained⟩, hbound⟩ := ih
    have hpeak := peak_succ (variablesInReach_le_peak (p := p)
      (s := .initial input output diagnostics) (Nat.le_refl 0) n)
    refine ⟨?_, ?_⟩
    · -- The peak is the one of an earlier state, unless the new state exceeds it.
      by_cases hle : (stateAfter p (n + 1)
          (.initial input output diagnostics)).memory.variablesInReach
            ≤ (stateAfter p n (.initial input output diagnostics)).profile.peakVariables
      · exact ⟨k, by omega, by omega⟩
      · exact ⟨n + 1, Nat.le_refl _, by omega⟩
    · rintro reach ⟨j, hj, rfl⟩
      by_cases hlast : j = n + 1
      · rw [hlast]
        omega
      · have hle := hbound ⟨j, by omega, rfl⟩
        omega

/-- **No peak is missed.** In every state of the run of any program, the one after a failed
instruction included, the peak in the profile is the largest number of variables in reach in any
state up to it: those of the global frame, of the top local frame and of the temporary frame. -/
theorem peak_greatest (p : Program) (input : Input) (output diagnostics : Output) (n : Nat) :
    IsGreatest
      { reach | ∃ k ≤ n, ∃ m, m = (stateAfter p k (.initial input output diagnostics)).memory ∧
        reach = m.globals.size + (m.locals.head?.map Frame.size).getD 0
          + (m.temporary.map Frame.size).getD 0 }
      (stateAfter p n (.initial input output diagnostics)).profile.peakVariables := by
  have hpeak := isGreatest_peak p input output diagnostics n
  refine ⟨?_, ?_⟩
  · obtain ⟨k, hk, hreach⟩ := hpeak.1
    exact ⟨k, hk, _, rfl, hreach.symm⟩
  · rintro reach ⟨k, hk, m, rfl, hreach⟩
    exact hpeak.2 ⟨k, hk, hreach.symm⟩

end Machine

end FrameCode
