import FrameCode.Proofs.IntegerNotation
import FrameCode.Proofs.Reading
import FrameCode.Proofs.StackForms

/-!
# Transcripts: what is written can be read

A program that writes values, each with a line feed behind it, leaves a **transcript**: the texts of
the values, one in a line. Another program that gets the transcript as its input reads the values
back, if it asks for their types in turn.

Three things have to hold for this. The text of a value must stay in its line, and a carriage return
at its end must not be taken for a part of the line end; numbers and truth values have no blanks in
their texts, and of a string it is required (`Value.Legible`). The line must be found again among
the others (`lines_transcript`). And the text must be read as the value (`readBackAs_readValue`),
for which numbers have a round trip of their own. A NaN is read as a NaN, and everything else as it
was (`Value.ReadBackAs`).
-/

namespace FrameCode

open FrameCode.Text

/-! ## The texts of values -/

/-- The values that can be read back from a line with their text: numbers, truth values, and the
strings that are not empty, have no line feed and do not end in a carriage return. -/
inductive Value.Legible : Value → Prop
  | int (n : Int64) : Legible (.int n)
  | float (x : Binary64) : Legible (.float x)
  | bool (b : Bool) : Legible (.bool b)
  | string {s : String} (hne : s ≠ "") (hfeed : '\n' ∉ s.toList)
    (hreturn : s.toList.getLast? ≠ some '\r') : Legible (.string s)

/-- What a value is when it is read back: the same, except that a NaN may be another NaN. -/
inductive Value.ReadBackAs : Value → Value → Prop
  | same (v : Value) : ReadBackAs v v
  | nan {x y : Binary64} (hx : x.isNaN = true) (hy : y.isNaN = true) :
    ReadBackAs (.float x) (.float y)

variable {v : Value} {c : Char}

theorem Text.isBlank_of_all {cs : List Char} (h : cs.all (!isBlank ·) = true) (hc : c ∈ cs) :
    isBlank c = false := by
  simpa using List.all_eq_true.mp h c hc

/-- A number that is not finite has a name for a notation. -/
theorem Binary64.toHex_cases (x : Binary64) :
    (x.isNaN = true ∧ x.toHex.toList = "nan".toList) ∨
      (x.isInfinite = true ∧ x.toHex.toList = withSign x.isNegative "inf".toList) ∨
      x.isFinite = true := by
  by_cases hnan : x.isNaN = true
  · exact .inl ⟨hnan, by rw [toHex, if_pos hnan]⟩
  · by_cases hinf : x.isInfinite = true
    · refine .inr (.inl ⟨hinf, ?_⟩)
      rw [toHex, if_neg hnan, if_pos hinf]
      cases x.isNegative with
      | true => rfl
      | false => rfl
    · refine .inr (.inr ?_)
      simp only [isNaN, isInfinite, isFinite, decide_eq_true_eq] at *
      omega

theorem Binary64.isBlank_toHex {x : Binary64} (h : c ∈ x.toHex.toList) : isBlank c = false := by
  have hbody : ∀ cs, (∀ d ∈ cs, isBlank d = false) → c ∈ withSign x.isNegative cs →
      isBlank c = false := by
    intro cs hcs hc
    rw [withSign] at hc
    split at hc
    · rcases List.mem_cons.mp hc with rfl | hc
      · rfl
      · exact hcs c hc
    · exact hcs c hc
  rcases x.toHex_cases with ⟨-, htext⟩ | ⟨-, htext⟩ | hfinite
  · rw [htext] at h
    exact isBlank_of_all (by decide) h
  · rw [htext] at h
    exact hbody _ (fun d hd => isBlank_of_all (by decide) hd) h
  · rw [toHex_finite hfinite] at h
    exact hbody _ (fun d hd => Figures.isBlank_text hd) h

/-- The texts of numbers and truth values have no blanks, so neither of the two characters that end
a line is in them. -/
theorem Value.isBlank_text (hv : ∀ s, v ≠ .string s) (h : c ∈ v.text.toList) :
    isBlank c = false := by
  cases v with
  | int n => exact Literal.isBlank_decimal h
  | float x => exact Binary64.isBlank_toHex h
  | bool b =>
    have hnames : ∀ b, (Value.bool b).text.toList.all (!isBlank ·) = true := by decide
    exact isBlank_of_all (hnames b) h
  | string s => exact absurd rfl (hv s)
  | nil => cases h

theorem Value.Legible.feed_not_mem (hv : v.Legible) : '\n' ∉ v.text.toList := by
  intro hmem
  have hblank : isBlank '\n' ≠ false := by decide
  cases hv with
  | string _ hfeed _ => exact hfeed hmem
  | int | float | bool => exact hblank (isBlank_text (by simp) hmem)

theorem Value.Legible.getLast?_ne_return (hv : v.Legible) :
    v.text.toList.getLast? ≠ some '\r' := by
  intro hlast
  have hblank : isBlank '\r' ≠ false := by decide
  cases hv with
  | string _ _ hreturn => exact hreturn hlast
  | int | float | bool => exact hblank (isBlank_text (by simp) (List.mem_of_getLast? hlast))

/-! ## Reading a text back -/

theorem Literal.exists_float?_toHex (x : Binary64) :
    ∃ y, float? x.toHex.toList = some y ∧ (Value.float x).ReadBackAs (.float y) := by
  rcases x.toHex_cases with ⟨hnan, htext⟩ | ⟨hinf, -⟩ | hfinite
  · have hread : float? "nan".toList = some Binary64.nan := by decide +kernel
    exact ⟨.nan, by rw [htext, hread], .nan hnan (by decide)⟩
  · exact ⟨x, float?_toHex_infinite hinf, .same _⟩
  · exact ⟨x, float?_toHex_finite hfinite, .same _⟩

/-- The text of a legible value, read for its type, gives the value again. -/
theorem Machine.readBackAs_readValue (hv : v.Legible) :
    v.ReadBackAs (readValue v.type (some v.text)) := by
  have hnonempty : ∀ text : String, text ≠ "" → text.isEmpty = false := by simp
  cases hv with
  | int n =>
    have hint := Literal.int?_decimal n
    -- The empty text is no literal.
    have hne : decimal n.toInt ≠ "" := by
      intro hempty
      rw [hempty] at hint
      cases hint
    simp only [readValue, Value.type, Value.text, hnonempty _ hne, hint, Option.map_some,
      Option.getD_some, Bool.false_eq_true, if_false]
    exact .same _
  | float x =>
    obtain ⟨y, hfloat, hback⟩ := Literal.exists_float?_toHex x
    have hne : x.toHex ≠ "" := by
      intro hempty
      rw [hempty] at hfloat
      cases hfloat
    simp only [readValue, Value.type, Value.text, hnonempty _ hne, hfloat, Option.map_some,
      Option.getD_some, Bool.false_eq_true, if_false]
    exact hback
  | bool b =>
    have hbool : ∀ b, readValue .bool (some (Value.bool b).text) = .bool b := by decide
    show (Value.bool b).ReadBackAs (readValue .bool (some (Value.bool b).text))
    rw [hbool]
    exact .same _
  | string hne _ _ =>
    simp only [readValue, Value.type, Value.text, hnonempty _ hne, Bool.false_eq_true, if_false]
    exact .same _

/-! ## Lines of a transcript -/

/-- The bytes of values that were written one after another, each with a line feed behind it. -/
def transcript (vs : List Value) : List UInt8 :=
  vs.flatMap fun v => encoded v.text ++ [Input.lineFeed]

variable {vs : List Value}

theorem Value.Legible.lineFeed_not_mem (hv : v.Legible) :
    Input.lineFeed ∉ encoded v.text := by
  intro hmem
  obtain ⟨c, hc, hcode⟩ := exists_mem_of_mem_encoded hmem (by decide)
  have hfeed : c = '\n' := Char.toNat_inj.mp hcode
  exact hv.feed_not_mem (hfeed ▸ hc)

theorem Value.Legible.content_eq (hv : v.Legible) :
    Input.content (encoded v.text ++ [Input.lineFeed]) = encoded v.text := by
  apply Input.content_ended
  intro hlast
  obtain ⟨c, hc, hcode⟩ := exists_getLast?_of_encoded hlast (by decide)
  have hreturn : c = '\r' := Char.toNat_inj.mp hcode
  exact hv.getLast?_ne_return (hreturn ▸ hc)

/-- Each legible value has a line of its own. -/
theorem lines_transcript (hvs : ∀ v ∈ vs, v.Legible) :
    Input.lines (transcript vs) = vs.map fun v => encoded v.text ++ [Input.lineFeed] := by
  induction vs with
  | nil => rfl
  | cons v vs ih =>
    have hv := hvs v (List.mem_cons_self ..)
    have hrest := ih fun w hw => hvs w (List.mem_cons_of_mem _ hw)
    have hcons : transcript (v :: vs) = encoded v.text ++ Input.lineFeed :: transcript vs := by
      simp [transcript]
    rw [hcons, Input.lines_append hv.lineFeed_not_mem, hrest, List.map_cons]

/-- The text at a position of a transcript is the text of the value at this position. -/
theorem textAt?_transcript (hvs : ∀ v ∈ vs, v.Legible) (k : Nat) :
    Input.textAt? (transcript vs) k = vs[k]?.map Value.text := by
  rw [Input.textAt?, lines_transcript hvs, List.getElem?_map]
  rcases hk : vs[k]? with _ | v
  · rfl
  · have hv := hvs v (List.mem_of_getElem? hk)
    rw [Option.map_some, Option.bind_some, hv.content_eq, Input.decode?_encoded, Option.map_some]

namespace Machine

variable {p : Program} {s : State} {a : Operand} {operands : List Operand}

/-! ## Writing a transcript -/

theorem decision_write {i : Instruction} (hop : i.opcode = .write) (hargs : i.args = [a])
    (hv : operandValue s.memory a = .ok v) : decision p s i = ⟨0, .ok (.write v.text)⟩ := by
  have ha : valueArgument s.memory i 0 = .ok v := by
    rw [valueArgument_of_args (a := a) (by rw [hargs]; rfl), hv]
  unfold decision
  rw [hop]
  simp only [Opcode.operation, decisionAs, ha]
  rfl

/-- Writing adds the text of a value to an output without limit. -/
theorem write_ok (h : p.HasAt s.counter .write [a]) (hv : operandValue s.memory a = .ok v)
    (hout : s.output.limit = none) :
    ∃ t, Passes p 1 s t ∧ t.output.limit = none ∧
      t.output.written.toList = s.output.written.toList ++ encoded v.text := by
  obtain ⟨i, hi, hop, hargs⟩ := h
  have hd := decision_write (p := p) (s := s.advanced) hop hargs hv
  have hperform : (s.advanced.taking 0).perform (.write v.text) = .next { s.advanced.taking 0 with
      output := { s.output with written := s.output.written ++ v.text.toUTF8.data } } := by
    unfold State.perform
    dsimp only
    rw [show (s.advanced.taking 0).output = s.output from rfl, Output.write_of_unlimited hout]
  refine ⟨_, ⟨.single (step?_of_next hi hd hperform), rfl, rfl, rfl⟩, hout, ?_⟩
  exact Array.toList_append

/-- The instructions that write operands, each with a line feed behind it. -/
def writing (operands : List Operand) : List (Opcode × List Operand) :=
  operands.flatMap fun a => [(.write, [a]), (.write, [.const (.string "\n")])]

/-- Instructions that write values in lines add a transcript of them to the output. -/
theorem write_transcript
    (hvs : List.Forall₂ (fun a v => operandValue s.memory a = .ok v) operands vs)
    (hp : p.Reads s.counter (writing operands)) (hout : s.output.limit = none) :
    ∃ t, Passes p (2 * vs.length) s t ∧ t.output.limit = none ∧
      t.output.written.toList = s.output.written.toList ++ transcript vs := by
  induction operands generalizing s vs with
  | nil =>
    cases hvs
    exact ⟨s, ⟨.refl s, rfl, rfl, rfl⟩, hout, by simp [transcript]⟩
  | cons a operands ih =>
    obtain ⟨v, vs, hv, hrest, rfl⟩ := List.forall₂_cons_left_iff.mp hvs
    obtain ⟨ha, hfeed, hp⟩ := hp
    obtain ⟨t, ht, htout, htwritten⟩ := write_ok ha hv hout
    obtain ⟨u, hu, huout, huwritten⟩ := write_ok (ht.hasAt hfeed) rfl htout
    -- Two instructions later the operands still have the values they had.
    have htu := ht.trans hu
    rw [← htu.memory] at hrest
    rw [← htu.counter] at hp
    obtain ⟨w, hw, hwout, hwwritten⟩ := ih hrest hp huout
    have hlength : 1 + 1 + 2 * vs.length = 2 * (v :: vs).length := by
      rw [List.length_cons]
      omega
    have hlf : encoded (Value.string "\n").text = [Input.lineFeed] := by decide
    refine ⟨w, hlength ▸ htu.trans hw, hwout, ?_⟩
    rw [hwwritten, huwritten, htwritten, hlf]
    simp [transcript]

/-! ## Reading a transcript -/

/-- **What is written is read back.** Instructions that write legible values, each with a line feed
behind it, add a transcript of the values to the output. In a run of any program on this transcript,
let `k` readings be completed. A further reading into a declared variable is completed too. If it
asks for the type of the value at position `k`, it stores this value, or another NaN if it is a NaN;
behind the last value it stores nil. -/
theorem transcript_read_back (hvs : ∀ v ∈ vs, v.Legible) :
    (∀ (p : Program) (s : State) (operands : List Operand),
      List.Forall₂ (fun a v => operandValue s.memory a = .ok v) operands vs →
      p.Reads s.counter (writing operands) → s.output.limit = none →
      ∃ t, Steps p (2 * vs.length) s t ∧
        t.output.written.toList = s.output.written.toList ++ transcript vs) ∧
    ∀ (q : Program) (output diagnostics : Output) (n k : Nat) (s : State),
      stateAfter q n (.initial { rest := transcript vs } output diagnostics) = s →
      readingsWithin q n (.initial { rest := transcript vs } output diagnostics) = k →
      ∀ i v type, q.instructions[s.counter]? = some i → i.opcode = .read →
        destination s.memory i = .ok v → typeArgument i 1 = .ok type → type ≠ .nil →
        ∃ t x, step? q s = some (.next t) ∧ t.memory.cell v = .ok (.holding x) ∧
          (∀ w, vs[k]? = some w → type = w.type → w.ReadBackAs x) ∧
          (vs.length ≤ k → x = .nil) := by
  refine ⟨?_, ?_⟩
  · intro p s operands hoperands hp hout
    obtain ⟨t, ht, -, hwritten⟩ := write_transcript hoperands hp hout
    exact ⟨t, ht.steps, hwritten⟩
  · intro q output diagnostics n k s hs hk i v type hi hop hv htype hne
    have hinput : s.input = linesFrom (transcript vs) k := by
      rw [← hs, ← hk]
      exact input_stateAfter q (transcript vs) output diagnostics n
    obtain ⟨t, ht, -, hmemory⟩ := step?_read hinput hi hop hv htype hne
    obtain ⟨c, hcell⟩ := exists_cell_of_destination hv
    rw [textAt?_transcript hvs] at hmemory
    refine ⟨t, _, ht, by rw [hmemory, Memory.cell_store hcell], ?_, ?_⟩
    · intro w hw htype
      rw [hw, htype]
      exact readBackAs_readValue (hvs w (List.mem_of_getElem? hw))
    · intro hlength
      rw [List.getElem?_eq_none hlength]
      rfl

/-- The smallest integer, a string with a carriage return inside, a negative zero and a truth
value. -/
def writtenValues : List Value :=
  [.int Int64.minValue, .string "a\rb", .float (.ofMagnitude true 0), .bool true]

/-- A program that writes the values in lines. -/
def writingProgram : Program :=
  ⟨((writing (writtenValues.map .const)).map fun (op, args) =>
    { opcode := op, args := args }).toArray, .empty⟩

/-- A program that reads the values in turn, and then one more integer. -/
def rereadingProgram : Program :=
  ⟨(({ opcode := .defVar, args := [.var ⟨.global, "x"⟩] } : Instruction) ::
    (writtenValues.map Value.type ++ [ValueType.int]).map fun type =>
      { opcode := .read, args := [.var ⟨.global, "x"⟩, .type type] }).toArray, .empty⟩

/-- The state of the program that reads after a number of steps. -/
def rereadingState (n : Nat) : State :=
  stateAfter rereadingProgram n (.initial { rest := transcript writtenValues } {} {})

/-- The second reading stores the string as it was written, and the fifth one finds nothing. -/
theorem transcript_read_back_fourValues :
    (∃ t, Steps writingProgram 8 (.initial { rest := [] } {} {}) t ∧
      t.output.written.toList = transcript writtenValues) ∧
    (∃ t, step? rereadingProgram (rereadingState 2) = some (.next t) ∧
      t.memory.cell ⟨.global, "x"⟩ = .ok (.holding (.string "a\rb"))) ∧
    ∃ t, step? rereadingProgram (rereadingState 5) = some (.next t) ∧
      t.memory.cell ⟨.global, "x"⟩ = .ok (.holding .nil) := by
  have hlegible : ∀ v ∈ writtenValues, v.Legible := by
    intro v hv
    simp only [writtenValues, List.mem_cons, List.not_mem_nil, or_false] at hv
    rcases hv with rfl | rfl | rfl | rfl
    · exact .int _
    · exact .string (by decide) (by decide) (by decide)
    · exact .float _
    · exact .bool _
  obtain ⟨hwrite, hread⟩ := transcript_read_back hlegible
  refine ⟨?_, ?_, ?_⟩
  · obtain ⟨t, ht, hwritten⟩ := hwrite writingProgram (.initial { rest := [] } {} {})
      (writtenValues.map .const) (by simp [writtenValues, operandValue])
      ⟨⟨_, rfl, rfl, rfl⟩, ⟨_, rfl, rfl, rfl⟩, ⟨_, rfl, rfl, rfl⟩, ⟨_, rfl, rfl, rfl⟩,
        ⟨_, rfl, rfl, rfl⟩, ⟨_, rfl, rfl, rfl⟩, ⟨_, rfl, rfl, rfl⟩, ⟨_, rfl, rfl, rfl⟩, trivial⟩ rfl
    exact ⟨t, ht, hwritten⟩
  · obtain ⟨t, x, ht, hcell, hsame, -⟩ := hread rereadingProgram {} {} 2 1 _ rfl rfl _ _ _ rfl rfl
      rfl rfl (by decide)
    have hx := hsame _ rfl rfl
    cases hx
    exact ⟨t, ht, hcell⟩
  · obtain ⟨t, x, ht, hcell, -, hnil⟩ := hread rereadingProgram {} {} 5 4 _ rfl rfl _ _ _ rfl rfl
      rfl rfl (by decide)
    rw [hnil (by decide)] at hcell
    exact ⟨t, ht, hcell⟩

end Machine

end FrameCode
