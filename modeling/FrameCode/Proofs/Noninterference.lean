import FrameCode.Proofs.Control
import FrameCode.Proofs.Probes
import FrameCode.Proofs.Relocation

/-!
# Diagnostics do not interfere

Breakpoints and debugging prints may be put into a program anywhere without changing what it does,
as long as the diagnostics can be written. The program with probes is the relocated program without
them (`FrameCode.Proofs.Relocation`), where `rank` takes the places of the one to those of the other
(`FrameCode.Proofs.Probes`), but it takes more steps. The simulation therefore comes in two parts.

* Where the program with probes is at a line of code, both machines carry out the same instruction.
* Where it is at a probe, it takes a step on its own, and the states are related as they were.

From the side of the program with probes, every step is one of the two. From the other side, a step
is matched once the machine with probes has caught up with it (`catch_up`); there are only so many
lines, and a probe does not jump.

A run that goes to the end of its program and then cannot flush its output reports this at the last
place of the program, which may be a probe. This is the one error that probes move away from the
code it belongs to.
-/

namespace FrameCode.Machine

variable {ls : List Line} {l : Line} {p p' : Program} {s s' t t' : State} {n : Nat}

/-! ## Probes -/

/-- A probe gives diagnostics, whatever the state. -/
theorem decision_probe (hl : l.original? = none) (p : Program) (s : State) (place : Nat) :
    ∃ text, decision p s { l.instruction with index := place } = ⟨0, .ok (.diagnose text)⟩ := by
  cases l with
  | code => cases hl
  | breakpoint order => exact ⟨s.dump, rfl⟩
  | print c order => exact ⟨c.text, rfl⟩

theorem opcode_probe (hl : l.original? = none) :
    l.instruction.opcode = .breakpoint ∨ l.instruction.opcode = .debugPrint := by
  cases l with
  | code => cases hl
  | breakpoint order => exact .inl rfl
  | print c order => exact .inr rfl

/-! ## One step -/

/-- At a probe, the machine with probes takes a step on its own. -/
theorem step?_probe (hb : Built ls p p') (hs : Relocated (rank ls) s s')
    (hl : ls[s'.counter]? = some l) (hprobe : l.original? = none) :
    ∃ t', step? p' s' = some (.next t') ∧ Relocated (rank ls) s t' ∧
      t'.counter = s'.counter + 1 := by
  obtain ⟨text, hd⟩ := decision_probe hprobe p' s'.advanced s'.counter
  obtain ⟨after, hperform, hafter⟩ :=
    perform_diagnose (s := s'.advanced.taking 0) hs.diagnostics' text
  refine ⟨_, step?_of_next (hb.getElem?_probed hl) hd hperform, ?_, rfl⟩
  refine { hs with counter := ?_, profile := ?_, diagnostics' := hafter }
  · change s.counter = rank ls (s'.counter + 1)
    rw [rank_succ_probe hl hprobe]
    exact hs.counter
  · exact hs.profile.record_diagnostics (opcode_probe hprobe)

/-- At a line of code, both machines carry out the same instruction. -/
theorem step?_code {i : Instruction} (hb : Built ls p p') (hs : Relocated (rank ls) s s')
    (hl : ls[s'.counter]? = some l) (hcode : l.original? = some i) :
    ∃ o o', step? p s = some o ∧ step? p' s' = some o' ∧ RelocatedOutcome (rank ls) o o' := by
  have hi := hb.getElem?_plain hl hcode
  rw [← hs.counter] at hi
  have hs₁ : Relocated (rank ls) s.advanced s'.advanced := by
    refine { hs with counter := ?_ }
    change s.counter + 1 = rank ls (s'.counter + 1)
    rw [rank_succ_code hl hcode, hs.counter]
  obtain ⟨hop, hargs⟩ := Line.of_original? hcode
  refine ⟨_, _, step?_of_instruction hi, step?_of_instruction (hb.getElem?_probed hl), ?_⟩
  exact carryOut_relocated hs₁ hb.resolve?_plain hop.symm hargs.symm

/-- Behind the last line, both machines stop. -/
theorem step?_end (hb : Built ls p p') (hs : Relocated (rank ls) s s')
    (hl : ls[s'.counter]? = none) : step? p s = none ∧ step? p' s' = none := by
  obtain ⟨h, h'⟩ := hb.getElem?_end hl
  rw [← hs.counter] at h
  exact ⟨step?_eq_none h, step?_eq_none h'⟩

/-- **One step.** The machine with probes is behind the last line, at a probe, or at the line of
code where the other one is. -/
theorem step?_cases (hb : Built ls p p') (hs : Relocated (rank ls) s s') :
    (step? p s = none ∧ step? p' s' = none) ∨
    (∃ l t', ls[s'.counter]? = some l ∧ l.original? = none ∧ step? p' s' = some (.next t') ∧
      Relocated (rank ls) s t' ∧ t'.counter = s'.counter + 1) ∨
    (SameLine ls s.counter s'.counter ∧ ∃ o o', step? p s = some o ∧ step? p' s' = some o' ∧
      RelocatedOutcome (rank ls) o o') := by
  rcases hl : ls[s'.counter]? with _ | l
  · exact .inl (step?_end hb hs hl)
  rcases hi : l.original? with _ | i
  · obtain ⟨t', hstep, ht, hcounter⟩ := step?_probe hb hs hl hi
    exact .inr (.inl ⟨l, t', rfl, hi, hstep, ht, hcounter⟩)
  · exact .inr (.inr ⟨⟨l, i, hl, hi, hs.counter.symm⟩, step?_code hb hs hl hi⟩)

/-! ## Following the machine with probes -/

/-- Every run of the machine with probes is a run of the other one, which pauses at the probes. -/
theorem steps_of_probed (hb : Built ls p p') (hs : Relocated (rank ls) s s')
    (h : Steps p' n s' t') : ∃ m t, Steps p m s t ∧ Relocated (rank ls) t t' := by
  induction h generalizing s with
  | refl s' => exact ⟨0, s, .refl s, hs⟩
  | cons hstep _ ih =>
    rcases step?_cases hb hs with ⟨-, hnone⟩ | ⟨l, u', -, -, hu', hu, -⟩ |
      ⟨-, o, o', ho, ho', hoo'⟩
    · rw [hnone] at hstep
      cases hstep
    · -- At a probe the machine without probes waits.
      rw [hu'] at hstep
      cases hstep
      exact ih hu
    · rw [ho'] at hstep
      cases hstep
      cases hoo' with
      | next hu =>
        obtain ⟨m, t, hm, ht⟩ := ih hu
        exact ⟨m + 1, t, .cons ho hm, ht⟩

/-! ## Following the machine without probes -/

/-- The machine with probes gets past the probes before the next line of code, or to the end. The
induction is on the number of lines that are left. -/
theorem catch_up (hb : Built ls p p') (hs : Relocated (rank ls) s s') :
    ∃ m t', Steps p' m s' t' ∧ Relocated (rank ls) s t' ∧
      ((step? p s = none ∧ step? p' t' = none) ∨ ∃ o o', step? p s = some o ∧
        step? p' t' = some o' ∧ RelocatedOutcome (rank ls) o o') := by
  generalize hleft : ls.length - s'.counter = left
  induction left using Nat.strongRecOn generalizing s' with
  | ind left ih =>
    rcases step?_cases hb hs with hend | ⟨l, u', hl, -, hstep, hu, hcounter⟩ | ⟨-, hcode⟩
    · exact ⟨0, s', .refl s', hs, .inl hend⟩
    · -- A probe leaves one line fewer, and the machines related as they were.
      have hlt : s'.counter < ls.length := (List.getElem?_eq_some_iff.mp hl).1
      have hless : ls.length - u'.counter < left := by omega
      obtain ⟨m, t', hm, ht, hcode⟩ := ih _ hless hu rfl
      exact ⟨m + 1, t', .cons hstep hm, ht, hcode⟩
    · exact ⟨0, s', .refl s', hs, .inr hcode⟩

/-- Every run of the machine without probes is one of the machine with probes. -/
theorem steps_of_plain (hb : Built ls p p') (hs : Relocated (rank ls) s s')
    (h : Steps p n s t) : ∃ m t', Steps p' m s' t' ∧ Relocated (rank ls) t t' := by
  induction h generalizing s' with
  | refl s => exact ⟨0, s', .refl s', hs⟩
  | cons hstep _ ih =>
    obtain ⟨m₁, u', hm₁, -, ⟨hnone, -⟩ | ⟨o, o', ho, ho', hoo'⟩⟩ := catch_up hb hs
    · rw [hnone] at hstep
      cases hstep
    · rw [ho] at hstep
      cases hstep
      cases hoo' with
      | next hv =>
        obtain ⟨m₂, t', hm₂, ht⟩ := ih hv
        exact ⟨m₁ + (m₂ + 1), t', hm₁.trans (.cons ho' hm₂), ht⟩

/-! ## Where the runs stop -/

/-- Two runs stop alike: both have left their programs, both exit, or both fail at the same line of
code. -/
inductive StopAlike (ls : List Line) (p p' : Program) : Finish → Finish → Prop
  | left {t t' : State} (h : Relocated (rank ls) t t') (hcounter : t.counter = p.size)
    (hcounter' : t'.counter = p'.size) : StopAlike ls p p' ⟨.ok 0, t⟩ ⟨.ok 0, t'⟩
  | exit {t t' : State} (code : Nat) (h : Relocated (rank ls) t t')
    (hline : SameLine ls t.place t'.place) : StopAlike ls p p' ⟨.ok code, t⟩ ⟨.ok code, t'⟩
  | fault {t t' : State} {n n' : Nat} (cause : Cause) (h : Relocated (rank ls) t t')
    (hline : SameLine ls n n') :
    StopAlike ls p p' ⟨.error ⟨cause, n⟩, t⟩ ⟨.error ⟨cause, n'⟩, t'⟩

/-- An instruction that exits is at the place before the counter. -/
theorem place_of_exit {code : Nat} (h : step? p s = some (.exit code t)) :
    t.place = s.counter := by
  obtain ⟨i, -, hc⟩ := exists_of_step? h
  obtain ⟨-, rfl⟩ := State.carryOut_eq_exit hc
  rfl

/-- Where the machine with probes stops, so does the other one. -/
theorem stops_of_probed {f' : Finish} (hb : Built ls p p') (hs : Relocated (rank ls) s s')
    (hplaced : Placed p' s') (h : Stops p' s' f') :
    ∃ f, Stops p s f ∧ StopAlike ls p p' f f' := by
  rcases step?_cases hb hs with ⟨hnone, hnone'⟩ | ⟨l, u', -, -, hu', -, -⟩ |
    ⟨hline, o, o', ho, ho', hoo'⟩
  · -- The counter of the machine with probes has not gone further than the end, and so neither
    -- has the other one.
    have hcounter' : s'.counter = p'.size := counter_of_left hplaced hnone'
    have hcounter : s.counter = p.size := by
      rw [hs.counter, hcounter', hb.rank_size]
    rw [h.unique (.left hnone')]
    exact ⟨_, .left hnone, .left hs hcounter hcounter'⟩
  · exact absurd hu' h.not_next
  · cases hoo' with
    | next => exact absurd ho' h.not_next
    | exit code ht =>
      rw [h.unique (.exit ho')]
      rw [← place_of_exit ho, ← place_of_exit ho'] at hline
      exact ⟨_, .exit ho, .exit code ht hline⟩
    | fault cause ht =>
      rw [h.unique (.fault ho')]
      exact ⟨_, .fault ho, .fault cause ht hline⟩

/-- Where the machine without probes stops, the other one catches up with it and stops. -/
theorem stops_of_plain {f : Finish} (hb : Built ls p p') (hs : Relocated (rank ls) s s')
    (h : Stops p s f) : ∃ m t' f', Steps p' m s' t' ∧ Stops p' t' f' := by
  obtain ⟨m, t', hm, -, ⟨-, hnone'⟩ | ⟨o, o', ho, ho', hoo'⟩⟩ := catch_up hb hs
  · exact ⟨m, t', _, hm, .left hnone'⟩
  · cases hoo' with
    | next => exact absurd ho h.not_next
    | exit code => exact ⟨m, t', _, hm, .exit ho'⟩
    | fault cause => exact ⟨m, t', _, hm, .fault ho'⟩

/-! ## How the runs end -/

/-- Both runs have left their programs, and that the output cannot be flushed is reported at the
last place of each. -/
structure UnflushedAtEnd (p p' : Program) (f f' : Finish) (n n' : Nat) : Prop where
  refusesFlush : f.state.output.refusesFlush = true
  counter : f.state.counter = p.size
  counter' : f'.state.counter = p'.size
  place : n = p.size - 1
  place' : n' = p'.size - 1

/-- Two runs end alike: with the same exit code, or with the same error at the same line of code,
and with the same frames, data stack, input, output and counts. -/
structure EndAlike (ls : List Line) (p p' : Program) (f f' : Finish) : Prop where
  result : (∃ code, f.result = .ok code ∧ f'.result = .ok code) ∨
    ∃ cause n n', f.result = .error ⟨cause, n⟩ ∧ f'.result = .error ⟨cause, n'⟩ ∧
      (SameLine ls n n' ∨ UnflushedAtEnd p p' f f' n n')
  memory : f.state.memory = f'.state.memory
  stack : f.state.stack = f'.state.stack
  input : f.state.input = f'.state.input
  output : f.state.output = f'.state.output
  profile : f.state.profile.Agrees f'.state.profile

theorem flushed_of_ok {code : Nat} (h : t.diagnostics.NeverFails) :
    (⟨.ok code, t⟩ : Finish).flushed =
      if t.output.refusesFlush then ⟨.error ⟨.channel Output.flushRefusal, t.place⟩, t⟩
      else ⟨.ok code, t⟩ := by
  unfold Finish.flushed Output.flush
  dsimp only
  rw [h.refusesFlush]
  by_cases ho : t.output.refusesFlush = true
  · rw [if_pos ho, if_pos ho]
  · rw [if_neg ho, if_neg ho]
    rfl

/-- Two runs that went well in states that are the same up to places end alike, if the places before
their counters are such that the failure to flush may be reported there. -/
theorem endAlike_flushed_of_ok {code : Nat} (h : Relocated (rank ls) t t')
    (hplace : SameLine ls t.place t'.place ∨ t.counter = p.size ∧ t'.counter = p'.size) :
    EndAlike ls p p' (⟨.ok code, t⟩ : Finish).flushed (⟨.ok code, t'⟩ : Finish).flushed := by
  rw [flushed_of_ok h.diagnostics, flushed_of_ok h.diagnostics', ← h.output]
  by_cases ho : t.output.refusesFlush = true
  · rw [if_pos ho, if_pos ho]
    refine ⟨.inr ⟨_, _, _, rfl, rfl, ?_⟩, h.memory, h.stack, h.input, h.output, h.profile⟩
    rcases hplace with hline | ⟨hcounter, hcounter'⟩
    · exact .inl hline
    · refine .inr ⟨ho, hcounter, hcounter', ?_, ?_⟩
      · rw [State.place, hcounter]
      · rw [State.place, hcounter']
  · rw [if_neg ho, if_neg ho]
    exact ⟨.inl ⟨code, rfl, rfl⟩, h.memory, h.stack, h.input, h.output, h.profile⟩

theorem StopAlike.endAlike {f f' : Finish} (h : StopAlike ls p p' f f') :
    EndAlike ls p p' f.flushed f'.flushed := by
  cases h with
  | left h hcounter hcounter' => exact endAlike_flushed_of_ok h (.inr ⟨hcounter, hcounter'⟩)
  | exit code h hline => exact endAlike_flushed_of_ok h (.inl hline)
  | fault cause h hline =>
    exact ⟨.inr ⟨cause, _, _, rfl, rfl, .inl hline⟩, h.memory, h.stack, h.input, h.output,
      h.profile⟩

/-- An end of the run with probes is matched by one of the run without them. -/
theorem ends_of_probed {f' : Finish} (hb : Built ls p p') (hs : Relocated (rank ls) s s')
    (hplaced : Placed p' s') (h : Ends p' s' f') : ∃ f, Ends p s f ∧ EndAlike ls p p' f f' := by
  obtain ⟨n, t', g', hsteps', hstop', rfl⟩ := ends_iff.mp h
  obtain ⟨m, t, hsteps, ht⟩ := steps_of_probed hb hs hsteps'
  have hplaced' : Placed p' t' := placed_of_steps hb.probed hplaced hsteps'
  obtain ⟨g, hstop, hg⟩ := stops_of_probed hb ht hplaced' hstop'
  exact ⟨g.flushed, ends_iff.mpr ⟨m, t, g, hsteps, hstop, rfl⟩, hg.endAlike⟩

/-- The run with probes ends if the run without them does. -/
theorem ends_of_plain {f : Finish} (hb : Built ls p p') (hs : Relocated (rank ls) s s')
    (h : Ends p s f) : ∃ f', Ends p' s' f' := by
  obtain ⟨n, t, g, hsteps, hstop, rfl⟩ := ends_iff.mp h
  obtain ⟨m₁, t', hsteps₁, ht⟩ := steps_of_plain hb hs hsteps
  obtain ⟨m₂, u', g', hsteps₂, hstop'⟩ := stops_of_plain hb ht hstop
  exact ⟨g'.flushed, ends_iff.mpr ⟨m₁ + m₂, u', g', hsteps₁.trans hsteps₂, hstop', rfl⟩⟩

theorem relocated_initial (ls : List Line) (input : Input) (output : Output)
    {diagnostics : Output} (h : diagnostics.NeverFails) :
    Relocated (rank ls) (.initial input output diagnostics)
      (.initial input output diagnostics) where
  counter := rfl
  memory := rfl
  calls := rfl
  stack := rfl
  profile := ⟨rfl, rfl, fun _ _ _ => rfl⟩
  input := rfl
  output := rfl
  diagnostics := h
  diagnostics' := h

/-- **Diagnostics do not interfere.** Put breakpoints and debugging prints of constants anywhere
into a program, and let the diagnostics never fail. The program can still be built, it ends on the
same inputs, and it ends alike: with the same exit code, or with the same error at the same line of
code, the same output, the same input left, the same frames and data stack, and the same counts but
for those of the diagnostics themselves. The one error that need not be at the same line of code is
the failure to flush the output after the end of the program, which stands at the last place of
either program. -/
theorem probes_do_not_interfere (hp : Program.ofInstructions (plain ls) = .ok p) :
    ∃ p', Program.ofInstructions (probed ls) = .ok p' ∧
      ∀ input output diagnostics, Output.NeverFails diagnostics →
        ((∃ f', Ends p' (.initial input output diagnostics) f') ↔
          ∃ f, Ends p (.initial input output diagnostics) f) ∧
        ∀ f f', Ends p (.initial input output diagnostics) f →
          Ends p' (.initial input output diagnostics) f' → EndAlike ls p p' f f' := by
  obtain ⟨p', hb⟩ := exists_built hp
  refine ⟨p', hb.probed, ?_⟩
  intro input output diagnostics hdiagnostics
  have hs := relocated_initial ls input output hdiagnostics
  have hplaced := placed_initial p' input output diagnostics
  refine ⟨⟨?_, ?_⟩, ?_⟩
  · rintro ⟨f', hf'⟩
    obtain ⟨f, hf, -⟩ := ends_of_probed hb hs hplaced hf'
    exact ⟨f, hf⟩
  · rintro ⟨f, hf⟩
    exact ends_of_plain hb hs hf
  · intro f f' hf hf'
    -- A run has one end, so the end that matches `f'` is `f`.
    obtain ⟨g, hg, halike⟩ := ends_of_probed hb hs hplaced hf'
    rw [hf.unique hg]
    exact halike

/-- A call and an exit with probes around them: the code behind the call, the label and the return
all have other places than without the probes. -/
def callingLines : List Line :=
  [.breakpoint 1, .code { opcode := .call, args := [.label "f"] } 2, .print (.int 1) 3,
    .code { opcode := .exit, args := [.const (.int 3)] } 4, .breakpoint 5,
    .code { opcode := .label, args := [.label "f"] } 6, .print .nil 7,
    .code { opcode := .ret, args := [] } 8]

/-- The call comes back behind itself, past a probe, and the run exits as it does without probes. -/
theorem probes_do_not_interfere_calling :
    ∃ p p' f f', Built callingLines p p' ∧ Ends p (.initial { rest := [] } {} {}) f ∧
      Ends p' (.initial { rest := [] } {} {}) f' ∧ f.result = .ok 3 ∧
      EndAlike callingLines p p' f f' := by
  let p : Program := ⟨(Program.number (plain callingLines)).toArray, ⟨[("f", 2)]⟩⟩
  have hp : Program.ofInstructions (plain callingLines) = .ok p := rfl
  obtain ⟨p', hp', h⟩ := probes_do_not_interfere hp
  obtain ⟨hends, halike⟩ := h { rest := [] } {} {} ⟨rfl, rfl⟩
  obtain ⟨f, hrun, hresult⟩ : ∃ f, run? p 10 (.initial { rest := [] } {} {}) = some f ∧
      f.result = .ok 3 := ⟨_, rfl, rfl⟩
  obtain ⟨f', hf'⟩ := hends.mpr ⟨f, 10, hrun⟩
  exact ⟨p, p', f, f', ⟨hp, hp'⟩, ⟨10, hrun⟩, hf', hresult, halike f f' ⟨10, hrun⟩ hf'⟩

/-- A program that ends with a probe. -/
def trailingProbe : List Line :=
  [.code { opcode := .createFrame, args := [] } 1, .print (.string "") 2]

/-- An output that cannot be flushed is reported at the last place of the program: without the probe
this is the code, and with it the probe. -/
theorem unflushed_reported_at_probe :
    ∃ p p' f f', Built trailingProbe p p' ∧
      Ends p (.initial { rest := [] } { refusesFlush := true } {}) f ∧
      Ends p' (.initial { rest := [] } { refusesFlush := true } {}) f' ∧
      f.result = .error ⟨.channel Output.flushRefusal, 0⟩ ∧
      f'.result = .error ⟨.channel Output.flushRefusal, 1⟩ ∧ ¬ SameLine trailingProbe 0 1 := by
  refine ⟨⟨(Program.number (plain trailingProbe)).toArray, .empty⟩,
    ⟨(Program.number (probed trailingProbe)).toArray, .empty⟩, _, _, ⟨rfl, rfl⟩, ⟨3, rfl⟩,
    ⟨3, rfl⟩, rfl, rfl, ?_⟩
  rintro ⟨l, i, hl, hi, -⟩
  cases hl
  cases hi

end FrameCode.Machine
