import FrameCode.Proofs.Histories
import FrameCode.Proofs.Transcripts

/-!
# Runs with a limited output

An output may take a limited number of bytes. A run does not notice the limit until it writes more
than that: only writings touch the output, and nothing that a machine does depends on what it wrote.
So the run goes as it would with an output that takes everything, up to the first writing that does
not fit. That one keeps the bytes that fit and fails.

`step?_writes` tells once what a step does with an output that takes everything: it writes the text
of one value, or it does the same with any limit. The rest follows the two runs side by side, in
which `State.limitedTo` is the state with a limit on its output.
-/

namespace FrameCode

open FrameCode.Text

/-! ## Writing up to a limit -/

/-- The output with a limit. -/
def Output.limitedTo (o : Output) (limit : Nat) : Output :=
  { o with limit := some limit }

/-- The output with a text behind what was written. -/
def Output.followedBy (o : Output) (text : String) : Output :=
  { o with written := o.written ++ text.toUTF8.data }

theorem Output.written_followedBy (o : Output) (text : String) :
    (o.followedBy text).written.toList = o.written.toList ++ encoded text :=
  Array.toList_append

/-- As long as the limit was kept, a text is written as far as it fits, and it is refused unless all
of it does. -/
theorem Output.write_limitedTo {o : Output} {limit : Nat} (h : o.written.size ≤ limit)
    (text : String) :
    (o.limitedTo limit).write text =
      (if (o.followedBy text).written.size ≤ limit then .ok () else .error writeRefusal,
        { o.limitedTo limit with written := (o.followedBy text).written.extract 0 limit }) := by
  have hsize : (o.followedBy text).written.size = o.written.size + text.toUTF8.data.size :=
    Array.size_append
  have hroom : (min text.toUTF8.data.size (limit - o.written.size) = text.toUTF8.data.size) ↔
      (o.followedBy text).written.size ≤ limit := by omega
  have hextract : (o.followedBy text).written.extract 0 limit =
      o.written ++ text.toUTF8.data.extract 0
        (min text.toUTF8.data.size (limit - o.written.size)) := by
    unfold followedBy
    rw [Array.extract_append, Array.extract_eq_self_of_le h, Nat.zero_sub]
    by_cases hfits : text.toUTF8.data.size ≤ limit - o.written.size
    · rw [Nat.min_eq_left hfits, Array.extract_eq_self_of_le hfits, Array.extract_size]
    · rw [Nat.min_eq_right (by omega)]
  unfold write room limitedTo
  simp only [hextract, hroom]

namespace Machine

variable {p : Program} {s t : State} {o : Outcome} {i : Instruction} {e : Effect} {v : Value}
  {f : Finish} {limit n : Nat}

/-! ## Values that are written -/

/-- The value that the instruction at the counter writes, if it is a writing and has one. -/
def writtenBy (p : Program) (s : State) : List Value :=
  match p.instructions[s.counter]? with
  | some i => if i.opcode = .write then (valueArgument s.memory i 0).toOption.toList else []
  | none => []

/-- The values of the writings that a run completes in a number of steps, first to last. -/
def writtenWithin (p : Program) : Nat → State → List Value
  | 0, _ => []
  | n + 1, s =>
    match step? p s with
    | some (.next t) => writtenBy p s ++ writtenWithin p n t
    | _ => []

/-! ## One step -/

/-- The state with a limit on its output. -/
def State.limitedTo (s : State) (limit : Nat) : State :=
  { s with output := s.output.limitedTo limit }

/-- The outcome with a limit on the output. -/
def Outcome.limitedTo (limit : Nat) : Outcome → Outcome
  | .next s => .next (s.limitedTo limit)
  | .exit code s => .exit code (s.limitedTo limit)
  | .fault cause s => .fault cause (s.limitedTo limit)

/-- No check looks at the output. -/
theorem decision_limitedTo (p : Program) (s : State) (i : Instruction) (limit : Nat) :
    decision p (s.limitedTo limit) i = decision p s i := by
  unfold decision
  cases i.opcode.operation <;> rfl

/-- An effect other than a writing leaves the output alone, and it is the same with any limit. -/
theorem perform_limitedTo (he : ∀ text, e ≠ .write text) (s : State) (limit : Nat) :
    (s.limitedTo limit).perform e = (s.perform e).limitedTo limit ∧
      (s.perform e).state.output = s.output := by
  cases e with
  | write text => exact absurd rfl (he text)
  | read v ty =>
    rcases hread : s.input.readLine with ⟨reason | line, input⟩
    · simp [State.perform, State.limitedTo, hread, Outcome.limitedTo, Outcome.state]
    · simp [State.perform, State.limitedTo, hread, Outcome.limitedTo, Outcome.state]
  | diagnose text =>
    rcases hwrite : s.diagnostics.write text with ⟨reason | _, diagnostics⟩
    · simp [State.perform, State.limitedTo, hwrite, Outcome.limitedTo, Outcome.state]
    · simp [State.perform, State.limitedTo, hwrite, Outcome.limitedTo, Outcome.state]
  | _ => exact ⟨rfl, rfl⟩

theorem carryOut_limitedTo (hd : ∀ text, (decision p s i).verdict ≠ .ok (.write text))
    (limit : Nat) :
    (s.limitedTo limit).carryOut p i = (s.carryOut p i).limitedTo limit ∧
      (s.carryOut p i).state.output = s.output := by
  unfold State.carryOut
  rw [decision_limitedTo]
  dsimp only
  rcases hverdict : (decision p s i).verdict with cause | e
  · exact ⟨rfl, rfl⟩
  · have he : ∀ text, e ≠ .write text := by
      rintro text rfl
      exact hd text hverdict
    obtain ⟨hperform, houtput⟩ := perform_limitedTo he (s.taking (decision p s i).taken) limit
    have htaking : (s.limitedTo limit).taking (decision p s i).taken =
        (s.taking (decision p s i).taken).limitedTo limit := rfl
    rw [htaking]
    dsimp only
    rw [hperform]
    generalize (s.taking (decision p s i).taken).perform e = o at houtput ⊢
    cases o with
    | next u => exact ⟨rfl, houtput⟩
    | exit code u => exact ⟨rfl, houtput⟩
    | fault cause u => exact ⟨rfl, houtput⟩

/-- A writing takes the value of its operand and writes the text of it. -/
theorem decision_of_write (p : Program) (s : State) (hop : i.opcode = .write) :
    decision p s i = .of (valueArgument s.memory i 0 >>= fun v => .ok (.write v.text)) := by
  unfold decision
  rw [hop]
  rfl

theorem ne_write_of_decision (hop : i.opcode ≠ .write) (text : String) :
    (decision p s i).verdict ≠ .ok (.write text) := by
  intro h
  have hperforms := Operation.eq_write_of_performs (decision_performs h)
  exact hop (Opcode.eq_write_of_operation hperforms)

/-- The state after a writing that fits. -/
def State.afterWriting (s : State) (i : Instruction) (v : Value) : State :=
  { s.advanced with output := s.output.followedBy v.text }.completed i

/-- The state after a writing that does not fit. -/
def State.cutOff (s : State) (v : Value) (limit : Nat) : State :=
  { s.advanced with
    output := { s.output.limitedTo limit with
      written := (s.output.followedBy v.text).written.extract 0 limit } }

/-- **What a step does with its output**, if the output takes everything: it is a writing and
completes, or it leaves the output alone and does the same with any limit. -/
theorem step?_writes (hout : s.output.limit = none) (h : step? p s = some o) :
    (∃ i v, p.instructions[s.counter]? = some i ∧ i.opcode = .write ∧
      valueArgument s.memory i 0 = .ok v ∧ o = .next (s.afterWriting i v)) ∨
    (writtenBy p s = [] ∧ o.state.output = s.output ∧
      ∀ limit, step? p (s.limitedTo limit) = some (o.limitedTo limit)) := by
  obtain ⟨i, hi, rfl⟩ := exists_of_step? h
  -- A step that decides on no writing is the same with any limit.
  have hother : (∀ text, (decision p s.advanced i).verdict ≠ .ok (.write text)) →
      (s.advanced.carryOut p i).state.output = s.output ∧
        ∀ limit, step? p (s.limitedTo limit) =
          some ((s.advanced.carryOut p i).limitedTo limit) := by
    intro hd
    refine ⟨(carryOut_limitedTo hd 0).2, ?_⟩
    intro limit
    have hi' : p.instructions[(s.limitedTo limit).counter]? = some i := hi
    rw [step?_of_instruction hi', ← (carryOut_limitedTo hd limit).1]
    rfl
  by_cases hop : i.opcode = .write
  · have hd := decision_of_write p s.advanced hop
    rcases hv : valueArgument s.memory i 0 with cause | v
    · right
      have hv' : valueArgument s.advanced.memory i 0 = .error cause := hv
      rw [hv'] at hd
      refine ⟨by simp [writtenBy, hi, hop, hv, Except.toOption], hother ?_⟩
      intro text
      rw [hd]
      simp [Decision.of]
    · left
      have hv' : valueArgument s.advanced.memory i 0 = .ok v := hv
      rw [hv'] at hd
      have hperform : (s.advanced.taking 0).perform (.write v.text) =
          .next { s.advanced.taking 0 with output := s.output.followedBy v.text } := by
        unfold State.perform
        dsimp only
        rw [show (s.advanced.taking 0).output = s.output from rfl,
          Output.write_of_unlimited hout]
        rfl
      have hnext := step?_of_next hi hd hperform
      rw [h, Option.some.injEq] at hnext
      exact ⟨i, v, hi, hop, hv, hnext⟩
  · right
    exact ⟨by simp [writtenBy, hi, hop], hother (ne_write_of_decision hop)⟩

/-- A writing under a limit that was kept so far: it is completed if its text fits, and otherwise it
fails with the bytes written that fit. -/
theorem step?_limitedTo_write (hkept : s.output.written.size ≤ limit)
    (hi : p.instructions[s.counter]? = some i) (hop : i.opcode = .write)
    (hv : valueArgument s.memory i 0 = .ok v) :
    step? p (s.limitedTo limit) =
      some (if (s.output.followedBy v.text).written.size ≤ limit then
          .next ((s.afterWriting i v).limitedTo limit)
        else .fault (.channel Output.writeRefusal) (s.cutOff v limit)) := by
  have hi' : p.instructions[(s.limitedTo limit).counter]? = some i := hi
  have hv' : valueArgument (s.limitedTo limit).advanced.memory i 0 = .ok v := hv
  have hd := decision_of_write p (s.limitedTo limit).advanced hop
  rw [hv'] at hd
  have hwrite := Output.write_limitedTo hkept v.text
  rw [step?_of_instruction hi']
  unfold State.carryOut
  rw [hd]
  simp only [Decision.of, Checks.ok_bind]
  unfold State.perform
  dsimp only
  rw [show ((s.limitedTo limit).advanced.taking 0).output = s.output.limitedTo limit from rfl,
    hwrite]
  by_cases hfits : (s.output.followedBy v.text).written.size ≤ limit
  · rw [if_pos hfits, if_pos hfits, Array.extract_eq_self_of_le hfits]
    rfl
  · rw [if_neg hfits, if_neg hfits]
    rfl

/-! ## Runs -/

/-- What a step writes is the text of the value it has for writing. -/
theorem written_of_step? (hout : s.output.limit = none) (h : step? p s = some (.next t)) :
    t.output.limit = none ∧ t.output.written.toList =
      s.output.written.toList ++ (writtenBy p s).flatMap fun v => encoded v.text := by
  rcases step?_writes hout h with ⟨i, v, hi, hop, hv, ho⟩ | ⟨hnone, houtput, -⟩
  · cases ho
    have hwritten : writtenBy p s = [v] := by simp [writtenBy, hi, hop, hv, Except.toOption]
    refine ⟨hout, ?_⟩
    rw [hwritten, List.flatMap_singleton]
    exact Output.written_followedBy s.output v.text
  · have houtput : t.output = s.output := houtput
    rw [houtput, hnone]
    exact ⟨hout, by simp⟩

/-- A step that ends the run writes nothing. -/
theorem output_of_ending (hout : s.output.limit = none) (h : step? p s = some o)
    (ho : ∀ t, o ≠ .next t) : o.state.output = s.output := by
  rcases step?_writes hout h with ⟨i, v, -, -, -, hnext⟩ | ⟨-, houtput, -⟩
  · exact absurd hnext (ho _)
  · exact houtput

/-- An output that takes everything holds the texts of the values of the writings that were
completed. -/
theorem written_stateAfter (hout : s.output.limit = none) (n : Nat) :
    (stateAfter p n s).output.written.toList =
      s.output.written.toList ++ (writtenWithin p n s).flatMap fun v => encoded v.text := by
  induction n generalizing s with
  | zero => simp [stateAfter, writtenWithin]
  | succ n ih =>
    rw [stateAfter, writtenWithin]
    rcases hs : step? p s with _ | o
    · simp
    · cases o with
      | next t =>
        obtain ⟨hlimit, hwritten⟩ := written_of_step? hout hs
        simp [ih hlimit, hwritten]
      | exit code t => simp [output_of_ending hout hs (by simp)]
      | fault cause t => simp [output_of_ending hout hs (by simp)]

/-- What was written stays. -/
theorem size_le_stateAfter (hout : s.output.limit = none) (n : Nat) :
    s.output.written.size ≤ (stateAfter p n s).output.written.size := by
  have hlength := congrArg List.length (written_stateAfter (p := p) hout n)
  rw [List.length_append, Array.length_toList, Array.length_toList] at hlength
  omega

theorem step?_limitedTo_none (h : step? p s = none) (limit : Nat) :
    step? p (s.limitedTo limit) = none := by
  by_cases hi : p.instructions[s.counter]? = none
  · exact step?_eq_none hi
  · obtain ⟨i, hi⟩ := Option.ne_none_iff_exists'.mp hi
    rw [step?_of_instruction hi] at h
    cases h

/-- A step after which the limit is kept is the same with the limit. -/
theorem step?_limitedTo (hout : s.output.limit = none) (h : step? p s = some o)
    (hfits : o.state.output.written.size ≤ limit) :
    step? p (s.limitedTo limit) = some (o.limitedTo limit) := by
  rcases step?_writes hout h with ⟨i, v, hi, hop, hv, rfl⟩ | ⟨-, -, hsame⟩
  · have hfits : (s.output.followedBy v.text).written.size ≤ limit := hfits
    have hsize : (s.output.followedBy v.text).written.size =
        s.output.written.size + v.text.toUTF8.data.size := Array.size_append
    rw [step?_limitedTo_write (by omega) hi hop hv, if_pos hfits]
    rfl
  · exact hsame limit

/-- **Before the limit.** As long as what was written fits, the run is in the state in which it
would be without the limit. -/
theorem stateAfter_limitedTo (hout : s.output.limit = none)
    (hfits : (stateAfter p n s).output.written.size ≤ limit) :
    stateAfter p n (s.limitedTo limit) = (stateAfter p n s).limitedTo limit := by
  induction n generalizing s with
  | zero => rfl
  | succ n ih =>
    rw [stateAfter] at hfits ⊢
    rw [stateAfter]
    rcases hs : step? p s with _ | o
    · rw [step?_limitedTo_none hs]
    · rw [hs] at hfits
      cases o with
      | next t =>
        have hlimit := (written_of_step? hout hs).1
        -- A state on the way has written no more than the last one.
        have hnow : t.output.written.size ≤ limit :=
          Nat.le_trans (size_le_stateAfter hlimit n) hfits
        rw [step?_limitedTo hout hs hnow]
        exact ih hlimit hfits
      | exit code t => rw [step?_limitedTo hout hs hfits]; rfl
      | fault cause t => rw [step?_limitedTo hout hs hfits]; rfl

/-- **At the limit.** A step without the limit that writes more than fits is a writing. With the
limit it fails, and it writes what fits. -/
theorem step?_limitedTo_fault (hout : s.output.limit = none) (hkept : s.output.written.size ≤ limit)
    (h : step? p s = some o) (hmore : limit < o.state.output.written.size) :
    ∃ i v, p.instructions[s.counter]? = some i ∧ i.opcode = .write ∧
      o = .next (s.afterWriting i v) ∧
      step? p (s.limitedTo limit) =
        some (.fault (.channel Output.writeRefusal) (s.cutOff v limit)) := by
  rcases step?_writes hout h with ⟨i, v, hi, hop, hv, rfl⟩ | ⟨-, houtput, -⟩
  · have hmore : limit < (s.output.followedBy v.text).written.size := hmore
    refine ⟨i, v, hi, hop, rfl, ?_⟩
    rw [step?_limitedTo_write hkept hi hop hv, if_neg (by omega)]
  · rw [houtput] at hmore
    omega

/-- **A prefix at all times.** What a run with a limit has written is what the run without it has,
up to the limit. -/
theorem written_limitedTo (hout : s.output.limit = none) (hkept : s.output.written.size ≤ limit)
    (n : Nat) :
    (stateAfter p n (s.limitedTo limit)).output.written.toList =
      (stateAfter p n s).output.written.toList.take limit := by
  have hall : ∀ {u : State}, u.output.written.size ≤ limit →
      (u.limitedTo limit).output.written.toList = u.output.written.toList.take limit := by
    intro u hu
    rw [List.take_of_length_le (by simpa using hu)]
    rfl
  induction n generalizing s with
  | zero => exact hall hkept
  | succ n ih =>
    rw [stateAfter, stateAfter]
    rcases hs : step? p s with _ | o
    · rw [step?_limitedTo_none hs]
      exact hall hkept
    · by_cases hfits : o.state.output.written.size ≤ limit
      · rw [step?_limitedTo hout hs hfits]
        cases o with
        | next t => exact ih (written_of_step? hout hs).1 hfits
        | exit code t => exact hall hfits
        | fault cause t => exact hall hfits
      · -- The run with the limit is over, and the other one writes behind what it has.
        obtain ⟨i, v, -, -, rfl, hfault⟩ := step?_limitedTo_fault hout hkept hs (by omega)
        have hlong : limit ≤ (s.afterWriting i v).output.written.toList.length := by
          rw [Array.length_toList]
          exact Nat.le_of_lt (Nat.lt_of_not_le hfits)
        rw [hfault]
        dsimp only
        rw [written_stateAfter (written_of_step? hout hs).1, List.take_append_of_le_length hlong]
        exact Array.toList_extract

/-! ## The end of a run -/

theorem Steps.output_limit (h : Steps p n s t) (hout : s.output.limit = none) :
    t.output.limit = none := by
  induction h with
  | refl s => exact hout
  | cons hs _ ih => exact ih (written_of_step? hout hs).1

/-- Steps that write no more than the limit are the same with it. -/
theorem Steps.limitedTo (h : Steps p n s t) (hout : s.output.limit = none)
    (hfits : t.output.written.size ≤ limit) :
    Steps p n (s.limitedTo limit) (t.limitedTo limit) := by
  induction h with
  | refl s => exact .refl _
  | @cons n s u t hs hrest ih =>
    have hlimit := (written_of_step? hout hs).1
    have hnow : u.output.written.size ≤ limit := by
      apply Nat.le_trans (size_le_stateAfter hlimit n)
      rw [stateAfter_of_steps hrest]
      exact hfits
    apply Steps.cons (step?_limitedTo hout hs hnow)
    exact ih hlimit hfits

/-- The end with a limit on the output. -/
def Finish.limitedTo (f : Finish) (limit : Nat) : Finish :=
  { f with state := f.state.limitedTo limit }

theorem Finish.flushed_limitedTo (f : Finish) (limit : Nat) :
    (f.limitedTo limit).flushed = f.flushed.limitedTo limit := by
  have hflush : (f.limitedTo limit).state.output.flush = f.state.output.flush := rfl
  have hflush' : (f.limitedTo limit).state.diagnostics.flush = f.state.diagnostics.flush := rfl
  unfold flushed
  rw [hflush, hflush', show (f.limitedTo limit).result = f.result from rfl]
  split
  · rfl
  · split <;> rfl

theorem Stops.limitedTo (h : Stops p s f) (hout : s.output.limit = none)
    (hfits : f.state.output.written.size ≤ limit) :
    Stops p (s.limitedTo limit) (f.limitedTo limit) := by
  cases h with
  | left hs => exact .left (step?_limitedTo_none hs limit)
  | exit hs => exact .exit (step?_limitedTo hout hs hfits)
  | fault hs => exact .fault (step?_limitedTo hout hs hfits)

/-- What a run stops with was written before. -/
theorem Stops.output_eq (h : Stops p s f) (hout : s.output.limit = none) :
    f.state.output = s.output := by
  cases h with
  | left hs => rfl
  | exit hs => exact output_of_ending hout hs (by simp)
  | fault hs => exact output_of_ending hout hs (by simp)

/-- A run that writes no more than the limit ends as it would without it. -/
theorem Ends.limitedTo (h : Ends p s f) (hout : s.output.limit = none)
    (hfits : f.state.output.written.size ≤ limit) :
    Ends p (s.limitedTo limit) (f.limitedTo limit) := by
  obtain ⟨n, t, g, hsteps, hstop, rfl⟩ := ends_iff.mp h
  rw [Finish.state_flushed] at hfits
  have hlimit := hsteps.output_limit hout
  have hbefore : t.output.written.size ≤ limit := by
    rw [← hstop.output_eq hlimit]
    exact hfits
  rw [← Finish.flushed_limitedTo]
  exact ends_iff.mpr ⟨n, _, _, hsteps.limitedTo hout hbefore, hstop.limitedTo hlimit hfits, rfl⟩

/-- How a run with a limit ends at a writing that does not fit: `before` and `after` are the states
around that writing in the run without the limit. -/
structure EndsAtLimit (p : Program) (limit : Nat) (before after : State) (f : Finish) : Prop where
  writing : ∃ i, p.instructions[before.counter]? = some i ∧ i.opcode = .write
  result : ∃ e, f.result = .error e ∧ e.cause = .channel Output.writeRefusal ∧
    e.place = before.counter ∧ e.exitCode = 99
  written : f.state.output.written.toList = after.output.written.toList.take limit
  /-- all the rest is as before the writing, but the counter has moved past it -/
  rest : f.state = { before.advanced with output := f.state.output }

/-- The run with a limit ends at the first writing that does not fit. -/
theorem ends_at_limit (hout : s.output.limit = none)
    (hfits : (stateAfter p n s).output.written.size ≤ limit)
    (hmore : limit < (stateAfter p (n + 1) s).output.written.size) :
    ∃ f, Ends p (s.limitedTo limit) f ∧
      EndsAtLimit p limit (stateAfter p n s) (stateAfter p (n + 1) s) f := by
  have hne : stateAfter p (n + 1) s ≠ stateAfter p n s := by
    intro heq
    rw [heq] at hmore
    omega
  have hsteps := steps_of_stateAfter_ne hne
  have hlimit := hsteps.output_limit hout
  rcases history_succ p n s with ⟨heq, -⟩ | ⟨o, ho, hafter, -⟩
  · exact absurd heq hne
  rw [hafter] at hmore ⊢
  obtain ⟨i, v, hi, hop, rfl, hfault⟩ := step?_limitedTo_fault hlimit hfits ho hmore
  refine ⟨_, ends_iff.mpr ⟨n, _, _, hsteps.limitedTo hout hfits, .fault hfault, rfl⟩, ?_⟩
  exact ⟨⟨i, hi, hop⟩, ⟨_, rfl, rfl, rfl, rfl⟩, Array.toList_extract, rfl⟩

/-- **The output is a faithful prefix.** A run writes the texts of the values of the writings that
it completes. With a limit it writes the same up to the limit. As long as that fits, both runs are
in the same state, and if all of it fits they end alike. The first writing that does not fit ends
the run with the limit, and but for the output the state is as it was before that writing. -/
theorem output_faithful_prefix (p : Program) (input : Input) (diagnostics : Output) (limit : Nat) :
    let s := State.initial input {} diagnostics
    let s' := State.initial input { limit := some limit } diagnostics
    (∀ n, (stateAfter p n s).output.written.toList =
      (writtenWithin p n s).flatMap fun v => encoded v.text) ∧
    (∀ n, (stateAfter p n s').output.written.toList =
      (stateAfter p n s).output.written.toList.take limit) ∧
    (∀ n, (stateAfter p n s).output.written.size ≤ limit →
      stateAfter p n s' = (stateAfter p n s).limitedTo limit) ∧
    (∀ f, Ends p s f → f.state.output.written.size ≤ limit → Ends p s' (f.limitedTo limit)) ∧
    ∀ n, (stateAfter p n s).output.written.size ≤ limit →
      limit < (stateAfter p (n + 1) s).output.written.size →
      ∃ f, Ends p s' f ∧ EndsAtLimit p limit (stateAfter p n s) (stateAfter p (n + 1) s) f := by
  intro s s'
  have hout : s.output.limit = none := rfl
  have hs' : s' = s.limitedTo limit := rfl
  rw [hs']
  refine ⟨?_, ?_, ?_, ?_, ?_⟩
  · intro n
    rw [written_stateAfter hout]
    rfl
  · exact written_limitedTo hout (Nat.zero_le limit)
  · intro n hfits
    exact stateAfter_limitedTo hout hfits
  · intro f hends hfits
    exact hends.limitedTo hout hfits
  · intro n hfits hmore
    exact ends_at_limit hout hfits hmore

/-- A program that writes one byte, then nothing and then two bytes, with a value on the stack. -/
def tightProgram : Program :=
  ⟨#[{ opcode := .write, args := [.const (.string "a")] },
    { opcode := .pushs, args := [.const (.int 7)] },
    { opcode := .write, args := [.const (.string "")] },
    { opcode := .write, args := [.const (.string "é")] }], .empty⟩

/-- The second byte of the last text does not fit in two bytes. The byte before it is written, and
the value stays on the stack. -/
theorem output_faithful_prefix_tight :
    ∃ f, Ends tightProgram (.initial { rest := [] } { limit := some 2 } {}) f ∧
      f.result = .error ⟨.channel Output.writeRefusal, 3⟩ ∧
      f.state.output.written.toList = [97, 195] ∧ f.state.stack = [.int 7] ∧
      f.state.profile.executed = 3 := by
  obtain ⟨-, -, -, -, hlimit⟩ := output_faithful_prefix tightProgram { rest := [] } {} 2
  obtain ⟨f, hends, -, ⟨e, he, hcause, hplace, -⟩, hwritten, hrest⟩ :=
    hlimit 3 (by decide +kernel) (by decide +kernel)
  refine ⟨f, hends, ?_, ?_, ?_, ?_⟩
  · rw [he]
    cases e
    cases hcause
    cases hplace
    rfl
  · rw [hwritten]
    decide +kernel
  · rw [hrest]
    rfl
  · rw [hrest]
    rfl

end Machine

end FrameCode
