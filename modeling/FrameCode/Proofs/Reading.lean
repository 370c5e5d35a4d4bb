import FrameCode.Proofs.Frames
import FrameCode.Proofs.Lines
import FrameCode.Proofs.Tallies

/-!
# Reading line by line

A run reads its input at the instructions that ask for a value, in whatever order it comes to them,
and for whatever types. However it goes, the `k`-th reading that is completed gets the `k`-th line
of the input, and no other instruction takes anything off it. So a line that cannot be used, because
it is no literal of the type or no text at all, is lost for this reading and for no other.

What a reading stores is told from the line (`Reads`): nil if there is no line, if the line is empty
or no text, or if it is no literal of a numeric type; otherwise a value of the type.

One step does two things to what is left of the input (`input_of_step?`): a reading that is
completed takes the first line off, and everything else leaves it alone. So the lines left are those
behind the readings completed so far (`input_stateAfter`).
-/

namespace FrameCode

/-- The text that the line at a position of an input shows, if there is such a line and it shows
one. -/
def Input.textAt? (bytes : List UInt8) (k : Nat) : Option String :=
  (lines bytes)[k]?.bind fun line => decode? (content line)

namespace Machine

open FrameCode.Checks

variable {p : Program} {s t : State} {i : Instruction} {o : Outcome} {v : Variable}
  {type : ValueType} {x : Value} {bytes : List UInt8} {output diagnostics : Output} {n k : Nat}

/-! ## The value of a line -/

/-- What a text stands for as a value of a type; a text that is no literal of a numeric type stands
for nil. -/
inductive StandsFor (text : String) : ValueType → Value → Prop
  | int {n : Int64} (h : Literal.int? text.toList = some n) : StandsFor text .int (.int n)
  | noInt (h : Literal.int? text.toList = none) : StandsFor text .int .nil
  | float {x : Binary64} (h : Literal.float? text.toList = some x) :
    StandsFor text .float (.float x)
  | noFloat (h : Literal.float? text.toList = none) : StandsFor text .float .nil
  | bool {b : Bool} (h : Text.sameLetters (Text.trim text.toList) "true".toList = b) :
    StandsFor text .bool (.bool b)
  | string : StandsFor text .string (.string text)

/-- What reading a value of a type makes of a line, or of the end of the input. -/
inductive Reads (type : ValueType) : Option (List UInt8) → Value → Prop
  | missing : Reads type none .nil
  | empty {line : List UInt8} (h : Input.Shows line []) : Reads type (some line) .nil
  | noText {line shown : List UInt8} (h : Input.Shows line shown)
    (hshown : ∀ text, Text.encoded text ≠ shown) : Reads type (some line) .nil
  | text {line : List UInt8} {text : String} {x : Value} (h : Input.Shows line (Text.encoded text))
    (hne : text ≠ "") (hx : StandsFor text type x) : Reads type (some line) x

theorem standsFor_readValue {text : String} (hne : text ≠ "") (htype : type ≠ .nil) :
    StandsFor text type (readValue type (some text)) := by
  have hempty : text.isEmpty = false := by simpa using hne
  unfold readValue
  simp only [hempty, Bool.false_eq_true, if_false]
  cases type with
  | int =>
    rcases h : Literal.int? text.toList with _ | n
    · exact .noInt h
    · exact .int h
  | float =>
    rcases h : Literal.float? text.toList with _ | y
    · exact .noFloat h
    · exact .float h
  | bool => exact .bool rfl
  | string => exact .string
  | nil => exact absurd rfl htype

/-- Reading a line gives what the line stands for. -/
theorem reads_readValue (line? : Option (List UInt8)) (htype : type ≠ .nil) :
    Reads type line?
      (readValue type (line?.bind fun line => Input.decode? (Input.content line))) := by
  rcases line? with _ | line
  · exact .missing
  · have hshows := Input.shows_content line
    rw [Option.bind_some]
    rcases hdecode : Input.decode? (Input.content line) with _ | text
    · exact .noText hshows (Input.decode?_eq_none_iff.mp hdecode)
    · rw [← Input.decode?_eq_some_iff.mp hdecode] at hshows
      by_cases hne : text = ""
      · rw [hne] at hshows ⊢
        exact .empty hshows
      · exact .text hshows hne (standsFor_readValue hne htype)

/-- What is read is nil or a value of the type that was asked for. -/
theorem Reads.type_eq {line? : Option (List UInt8)} (h : Reads type line? x) :
    x = .nil ∨ x.type = type := by
  cases h with
  | missing => exact .inl rfl
  | empty => exact .inl rfl
  | noText => exact .inl rfl
  | text _ _ hx =>
    cases hx with
    | noInt | noFloat => exact .inl rfl
    | int | float | bool | string => exact .inr rfl

/-! ## One reading -/

theorem decision_read (hop : i.opcode = .read) (hv : destination s.memory i = .ok v)
    (htype : typeArgument i 1 = .ok type) (hne : type ≠ .nil) :
    decision p s i = ⟨0, .ok (.read v type)⟩ := by
  unfold decision
  rw [hop]
  simp [Opcode.operation, decisionAs, Decision.of, hv, htype, hne]

/-- A decision to read has checked the destination and the type. -/
theorem of_decision_read {e : Effect} (hop : i.opcode = .read)
    (h : (decision p s i).verdict = .ok e) :
    ∃ v type, destination s.memory i = .ok v ∧ typeArgument i 1 = .ok type ∧ type ≠ .nil ∧
      e = .read v type := by
  unfold decision at h
  rw [hop] at h
  simp only [Opcode.operation, decisionAs, Decision.of, bind_eq_ok] at h
  obtain ⟨v, hv, type, htype, h⟩ := h
  by_cases hnil : type = .nil
  · rw [if_pos hnil] at h
    cases h
  · rw [if_neg hnil] at h
    cases h
    exact ⟨v, type, hv, htype, hnil, rfl⟩

/-- Reading takes the first line off an input that does not fail, and stores its value. -/
theorem perform_read (hinput : s.input = { rest := bytes }) (v : Variable) (type : ValueType) :
    s.perform (.read v type) =
      .next { s with
        input := { rest := (Input.lines bytes).tail.flatten }
        memory := s.memory.store v (.holding (readValue type
          ((Input.lines bytes).head?.bind fun line => Input.decode? (Input.content line)))) } := by
  simp only [State.perform, hinput, Input.readLine_eq]

/-- No other effect touches the input. -/
theorem input_of_perform (s : State) {e : Effect} (h : ∀ v type, e ≠ .read v type) :
    (s.perform e).state.input = s.input := by
  cases e with
  | read v type => exact absurd rfl (h v type)
  | write | diagnose =>
    unfold State.perform
    dsimp only
    split
    · rfl
    · rfl
  | _ => rfl

/-! ## One step -/

/-- The lines of an input from a position on. -/
def linesFrom (bytes : List UInt8) (k : Nat) : Input :=
  { rest := ((Input.lines bytes).drop k).flatten }

/-- The line at a position and the lines behind it are the lines from the position on. -/
theorem rest_linesFrom (bytes : List UInt8) (k : Nat) :
    (Input.lines bytes)[k]?.getD [] ++ (linesFrom bytes (k + 1)).rest =
      (linesFrom bytes k).rest := by
  unfold linesFrom
  rw [List.drop_eq_getElem?_toList_append (i := k), List.flatten_append]
  rcases (Input.lines bytes)[k]? with _ | line
  · rfl
  · simp

/-- A reading that stands at the line at a position takes this line. -/
theorem perform_read_linesFrom (hinput : s.input = linesFrom bytes k) (v : Variable)
    (type : ValueType) :
    s.perform (.read v type) =
      .next { s with
        input := linesFrom bytes (k + 1)
        memory := s.memory.store v (.holding (readValue type (Input.textAt? bytes k))) } := by
  rw [perform_read hinput, Input.lines_flatten_drop]
  simp only [linesFrom, List.tail_drop, List.head?_drop, Input.textAt?]

theorem occurrences_singleton (hi : p.instructions[n]? = some i) (op : Opcode) :
    p.occurrences [n] op = if op = i.opcode then 1 else 0 :=
  Program.occurrences_concat hi [] op

/-- **One step takes one line or nothing.** A reading that is completed takes the next line off the
input, and any other step leaves the input alone, also a reading that fails its checks. -/
theorem input_of_step? (hinput : s.input = linesFrom bytes k) (h : step? p s = some o) :
    o.state.input = linesFrom bytes (k + p.occurrences (o.completedAt s.counter) .read) := by
  obtain ⟨i, hi, hc⟩ := exists_of_step? h
  cases o with
  | next t =>
    obtain ⟨e, u, he, hu, rfl⟩ := State.carryOut_eq_next hc
    have htaken : ∀ d, (s.advanced.taking d).input = linesFrom bytes k := fun _ => hinput
    rw [Outcome.completedAt, occurrences_singleton hi]
    by_cases hop : i.opcode = .read
    · obtain ⟨v, type, -, -, -, rfl⟩ := of_decision_read hop he
      rw [perform_read_linesFrom (htaken _)] at hu
      cases hu
      rw [if_pos hop.symm]
      rfl
    · -- Only a reading instruction decides to read.
      have hother : ∀ v type, e ≠ .read v type := by
        rintro v type rfl
        exact hop (Opcode.eq_read_of_operation
          (Operation.eq_read_of_performs (decision_performs he)))
      have hsame := input_of_perform (s.advanced.taking (decision p s.advanced i).taken) hother
      rw [hu] at hsame
      rw [if_neg (Ne.symm hop), Nat.add_zero]
      exact hsame.trans hinput
  | exit code t =>
    obtain ⟨j, -, hj, hop, -⟩ := exit_of_step? h
    obtain ⟨-, rfl⟩ := State.carryOut_eq_exit hc
    rw [Outcome.completedAt, occurrences_singleton hj, hop, if_neg (by decide)]
    exact hinput
  | fault cause t =>
    rw [Outcome.completedAt]
    rcases State.carryOut_eq_fault hc with ⟨-, rfl⟩ | ⟨e, -, hperform⟩
    · exact hinput
    · by_cases hread : ∃ v type, e = .read v type
      · -- The input does not fail, so neither does reading from it.
        obtain ⟨v, type, rfl⟩ := hread
        rw [perform_read_linesFrom (s := s.advanced.taking _) hinput] at hperform
        cases hperform
      · have hother : ∀ v type, e ≠ .read v type := fun v type heq => hread ⟨v, type, heq⟩
        have hsame := input_of_perform (s.advanced.taking (decision p s.advanced i).taken) hother
        rw [hperform] at hsame
        exact hsame.trans hinput

/-! ## Whole runs -/

/-- The readings that a run has completed within a number of steps. -/
def readingsWithin (p : Program) (n : Nat) (s : State) : Nat :=
  p.occurrences (completedWithin p n s) .read

/-- In every state of a run, what is left of the input are the lines behind those that were read. -/
theorem input_stateAfter (p : Program) (bytes : List UInt8) (output diagnostics : Output)
    (n : Nat) :
    (stateAfter p n (.initial { rest := bytes } output diagnostics)).input =
      linesFrom bytes (readingsWithin p n (.initial { rest := bytes } output diagnostics)) := by
  induction n with
  | zero =>
    show ({ rest := bytes } : Input) = { rest := (Input.lines bytes).flatten }
    rw [Input.flatten_lines]
  | succ n ih =>
    rcases history_succ p n (.initial { rest := bytes } output diagnostics) with
      ⟨hsame, hdone⟩ | ⟨o, hstep, hnext, hdone⟩
    · unfold readingsWithin at ih ⊢
      rw [hsame, hdone, ih]
    · rw [hnext, input_of_step? ih hstep]
      unfold readingsWithin Program.occurrences
      rw [hdone, List.countP_append]

/-- A reading whose checks succeed is completed, and stores the value of the next line. -/
theorem step?_read (hinput : s.input = linesFrom bytes k) (hi : p.instructions[s.counter]? = some i)
    (hop : i.opcode = .read) (hv : destination s.memory i = .ok v)
    (htype : typeArgument i 1 = .ok type) (hne : type ≠ .nil) :
    ∃ t, step? p s = some (.next t) ∧ t.input = linesFrom bytes (k + 1) ∧
      t.memory = s.memory.store v (.holding (readValue type (Input.textAt? bytes k))) :=
  ⟨_, step?_of_next hi (decision_read (s := s.advanced) hop hv htype hne)
    (perform_read_linesFrom (s := s.advanced.taking 0) hinput v type), rfl, rfl⟩

theorem exists_cell_of_destination (h : destination s.memory i = .ok v) :
    ∃ c, s.memory.cell v = .ok c := by
  simp only [destination, bind_eq_ok, pure_eq, Except.ok.injEq] at h
  obtain ⟨w, -, c, hc, rfl⟩ := h
  exact ⟨c, hc⟩

/-- **The `k`-th reading gets the `k`-th line.** Let a run on any bytes have completed `k` readings.
The lines that were read are the first `k`, and the bytes behind them are left. A reading in this
state is completed if its destination is declared and its type is not nil. It takes the next line
off the input, if there is one, and stores what the line stands for in its destination: nil, or a
value of its type. -/
theorem reads_follow_lines
    (hs : stateAfter p n (.initial { rest := bytes } output diagnostics) = s)
    (hk : readingsWithin p n (.initial { rest := bytes } output diagnostics) = k) :
    ((Input.lines bytes).take k).flatten ++ s.input.rest = bytes ∧
    ∀ i, p.instructions[s.counter]? = some i → i.opcode = .read →
      (∀ v type, destination s.memory i = .ok v → typeArgument i 1 = .ok type → type ≠ .nil →
        ∃ t, step? p s = some (.next t)) ∧
      ∀ t, step? p s = some (.next t) →
        (Input.lines bytes)[k]?.getD [] ++ t.input.rest = s.input.rest ∧
        ∃ v type x, destination s.memory i = .ok v ∧ typeArgument i 1 = .ok type ∧
          t.memory = s.memory.store v (.holding x) ∧ t.memory.cell v = .ok (.holding x) ∧
          Reads type (Input.lines bytes)[k]? x ∧ (x = .nil ∨ x.type = type) := by
  have hinput : s.input = linesFrom bytes k := by
    rw [← hs, ← hk]
    exact input_stateAfter p bytes output diagnostics n
  refine ⟨?_, ?_⟩
  · rw [hinput, linesFrom, ← List.flatten_append, List.take_append_drop, Input.flatten_lines]
  · intro i hi hop
    refine ⟨?_, ?_⟩
    · intro v type hv htype hne
      obtain ⟨t, ht, -⟩ := step?_read hinput hi hop hv htype hne
      exact ⟨t, ht⟩
    · intro t ht
      have hc := ht
      rw [step?_of_instruction hi, Option.some.injEq] at hc
      obtain ⟨e, -, he, -⟩ := State.carryOut_eq_next hc
      obtain ⟨v, type, hv, htype, hne, -⟩ := of_decision_read hop he
      obtain ⟨u, hu, hrest, hmemory⟩ := step?_read hinput hi hop hv htype hne
      rw [ht] at hu
      cases hu
      have hreads := reads_readValue (Input.lines bytes)[k]? hne
      obtain ⟨c, hcell⟩ := exists_cell_of_destination hv
      refine ⟨?_, v, type, _, hv, htype, hmemory, ?_, hreads, hreads.type_eq⟩
      · rw [hrest, hinput]
        exact rest_linesFrom bytes k
      · rw [hmemory]
        exact Memory.cell_store hcell _

/-- Three readings into one variable, of different types. -/
def readingProgram : Program :=
  ⟨#[{ opcode := .defVar, args := [.var ⟨.global, "x"⟩] },
    { opcode := .read, args := [.var ⟨.global, "x"⟩, .type .bool] },
    { opcode := .read, args := [.var ⟨.global, "x"⟩, .type .string] },
    { opcode := .read, args := [.var ⟨.global, "x"⟩, .type .int] }], .empty⟩

/-- A line that is no text, the letter `a` with both line ends, and a last line without line
feed. -/
def readingBytes : List UInt8 :=
  [0xff, 0x0a, 0x61, 0x0d, 0x0a, 0x62, 0x0d]

/-- The state of the readings after a number of steps. -/
def readingState (n : Nat) : State :=
  stateAfter readingProgram n (.initial { rest := readingBytes } {} {})

/-- The first reading loses a line that is no text, and the second one still gets the letter. -/
theorem reads_follow_lines_noText :
    Input.lines readingBytes = [[0xff, 0x0a], [0x61, 0x0d, 0x0a], [0x62, 0x0d]] ∧
      (readingState 2).input.rest = [0x61, 0x0d, 0x0a, 0x62, 0x0d] ∧
      ∃ t, step? readingProgram (readingState 2) = some (.next t) ∧
        t.memory.cell ⟨.global, "x"⟩ = .ok (.holding (.string "a")) := by
  have hone : readingsWithin readingProgram 2 (.initial { rest := readingBytes } {} {}) = 1 := rfl
  obtain ⟨hleft, hread⟩ := reads_follow_lines (s := readingState 2) rfl hone
  obtain ⟨hdone, hvalue⟩ := hread _ rfl rfl
  obtain ⟨t, ht⟩ := hdone _ _ rfl rfl (by decide)
  obtain ⟨-, v, type, x, hv, htype, -, hcell, hreads, -⟩ := hvalue t ht
  cases hv
  cases htype
  refine ⟨rfl, List.append_cancel_left (hleft.trans rfl), t, ht, ?_⟩
  -- The line shows one byte, which is the encoding of one text only.
  have hline : ∀ shown, Input.Shows [0x61, 0x0d, 0x0a] shown → shown = Text.encoded "a" :=
    fun shown hshows => (Input.shows_iff.mp hshows).symm.trans rfl
  rw [hcell]
  cases hreads with
  | empty h => cases hline _ h
  | noText h hshown => exact absurd (hline _ h).symm (hshown "a")
  | text h hne hx =>
    rw [Text.encoded_inj (hline _ h)] at hx
    cases hx
    rfl

end Machine

end FrameCode
