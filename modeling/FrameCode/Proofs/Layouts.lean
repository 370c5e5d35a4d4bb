import FrameCode.CommandLine.Command

/-!
# One command line, read twice

The options tell how often each field of a report was asked for, and the layout tells in which
order. The two come from separate readings of the same arguments, and the second one does not repeat
the checks of the first. They stay in step because both find the same flags: an argument that is the
value of a flag is passed over by both, whatever it looks like.

What a command line says is written down here without reading it. An `Occurrence` is a flag with its
value, and `Spells` tells how occurrences are written as arguments. The first reading accepts what
spells occurrences and adds these up (`exists_spells_of_read`, `read_of_spells`); the second lists
the fields that they stand for (`layout_of_spells`). What was added up is then what is listed
(`Options.Tells`).
-/

namespace FrameCode

/-- The text that a field prints, if it prints a given one. -/
def ReportField.printed? : ReportField → Option String
  | .print text => some text
  | _ => none

namespace CommandLine

/-! ## What a command line says -/

/-- A flag of a command line, alone or with its value. -/
inductive Occurrence where
  | plain (flag : Flag)
  | valued (flag : Flag) (value : String)

/-- The field of the report that an occurrence asks for. A path asks for none, whatever it says. -/
def Occurrence.field? : Occurrence → Option ReportField
  | plain .executed => some .executed
  | plain .hot => some .hot
  | plain .peak => some .peak
  | plain .frequent => some .frequent
  | plain .lineBreak => some .lineBreak
  | valued .print text => some (.print text)
  | _ => none

/-- How occurrences are written as arguments. A value is attached with an equals sign, or it is an
argument of its own that is a lone hyphen or does not start with one. -/
inductive Spells : List String → List Occurrence → Prop
  | nothing : Spells [] []
  /-- a double hyphen may end the flags -/
  | closed : Spells ["--"] []
  | plain {flag : Flag} {args : List String} {os : List Occurrence}
    (hflag : flag.takesValue = false) (rest : Spells args os) :
    Spells (flag.text :: args) (.plain flag :: os)
  | attached {flag : Flag} {value : String} {args : List String} {os : List Occurrence}
    (hflag : flag.takesValue = true) (rest : Spells args os) :
    Spells ((flag.text ++ "=" ++ value) :: args) (.valued flag value :: os)
  | separate {flag : Flag} {value : String} {args : List String} {os : List Occurrence}
    (hflag : flag.takesValue = true) (hvalue : value = "-" ∨ value.toList.head? ≠ some '-')
    (rest : Spells args os) : Spells (flag.text :: value :: args) (.valued flag value :: os)

variable {args : List String} {os : List Occurrence} {x : Occurrence} {o o' : Options} {flag : Flag}
  {value : String} {fields : List ReportField}

/-! ## The first reading -/

/-- The options with one more occurrence. -/
def Options.add (o : Options) : Occurrence → Option Options
  | .plain flag => o.addFlag flag
  | .valued flag value => o.addValue value flag

theorem isValue_iff :
    Options.isValue value = true ↔ value = "-" ∨ value.toList.head? ≠ some '-' := by
  simp [Options.isValue]

theorem text_ne_end (flag : Flag) : flag.text ≠ "--" := by
  cases flag <;> decide

theorem attached_ne_end (flag : Flag) (value : String) : flag.text ++ "=" ++ value ≠ "--" := by
  intro h
  have hsplit := splitArgument_attached flag value
  rw [h] at hsplit
  -- The double hyphen holds no equals sign.
  have hend : splitArgument "--" = ("--", none) := by decide
  rw [hend] at hsplit
  simp at hsplit

/-- Reading arguments that spell occurrences adds these up. -/
theorem read_of_spells (h : Spells args os) (o : Options) :
    o.read args = os.foldlM Options.add o := by
  induction h generalizing o with
  | nothing => simp [Options.read]
  | closed => simp [Options.read]
  | plain hflag _ ih =>
    simp [Options.read, text_ne_end, hflag, Options.add, ih]
  | attached hflag _ ih =>
    simp [Options.read, attached_ne_end, hflag, Options.add, ih]
  | separate hflag hvalue _ ih =>
    simp [Options.read, text_ne_end, hflag, isValue_iff.mpr hvalue, Options.add, ih]

theorem eq_text_of_splitArgument {arg name : String} (hsplit : splitArgument arg = (name, none))
    (hflag : Flag.ofText? name = some flag) : arg = flag.text := by
  have hnone : (splitArgument arg).2 = none := by rw [hsplit]
  have hname := fst_splitArgument_of_none hnone
  rw [hsplit] at hname
  rw [← hname, text_of_ofText? hflag]

/-- Arguments that are understood spell some occurrences. The induction follows the reading, which
takes one argument or two at a time. -/
theorem exists_spells_of_read (h : o.read args = some o') : ∃ os, Spells args os := by
  fun_induction Options.read o args with
  | case1 => exact ⟨[], .nothing⟩
  | case2 o rest hrest =>
    obtain rfl : rest = [] := List.isEmpty_iff.mp hrest
    exact ⟨[], .closed⟩
  | case5 o arg _ name flag hflag htakes value rest hsplit ih =>
    obtain ⟨o₁, -, hread⟩ := Option.bind_eq_some_iff.mp h
    obtain ⟨os, hos⟩ := ih o₁ hread
    rw [eq_of_splitArgument_some hsplit, ← text_of_ofText? hflag]
    exact ⟨_, .attached htakes hos⟩
  | case6 o arg _ name flag hflag htakes value rest hvalue hsplit ih =>
    obtain ⟨o₁, -, hread⟩ := Option.bind_eq_some_iff.mp h
    obtain ⟨os, hos⟩ := ih o₁ hread
    rw [eq_text_of_splitArgument hsplit hflag]
    exact ⟨_, .separate htakes (isValue_iff.mp hvalue) hos⟩
  | case10 o arg rest _ name flag hflag htakes hsplit ih =>
    obtain ⟨o₁, -, hread⟩ := Option.bind_eq_some_iff.mp h
    obtain ⟨os, hos⟩ := ih o₁ hread
    rw [eq_text_of_splitArgument hsplit hflag]
    exact ⟨_, .plain (Bool.eq_false_iff.mpr htakes) hos⟩
  | case3 | case4 | case7 | case8 | case9 => simp at h

/-! ## The second reading -/

/-- A flag without value gives its field. -/
theorem layout_plain (hflag : flag.takesValue = false) (rest : List String) :
    layout (flag.text :: rest) = (Occurrence.plain flag).field?.toList ++ layout rest := by
  rw [layout.eq_def]
  simp only [splitArgument_text, ofText?_text]
  cases flag with
  | source | input | stats | print => simp [Flag.takesValue] at hflag
  | _ => simp [Flag.takesValue, fieldOf?, Occurrence.field?]

/-- A value that is attached is printed or left out, whatever it is. -/
theorem layout_attached (hflag : flag.takesValue = true) (value : String) (rest : List String) :
    layout ((flag.text ++ "=" ++ value) :: rest) =
      (Occurrence.valued flag value).field?.toList ++ layout rest := by
  rw [layout.eq_def]
  simp only [splitArgument_attached, ofText?_text]
  cases flag with
  | source | input | stats | print => simp [fieldOf?, Occurrence.field?]
  | _ => simp [Flag.takesValue] at hflag

/-- A value of its own is not looked at, so it may be the name of a flag or hold an equals sign. -/
theorem layout_separate (hflag : flag.takesValue = true) (value : String) (rest : List String) :
    layout (flag.text :: value :: rest) =
      (Occurrence.valued flag value).field?.toList ++ layout rest := by
  rw [layout.eq_def]
  simp only [splitArgument_text, ofText?_text]
  cases flag with
  | source | input | stats | print => simp [Flag.takesValue, Occurrence.field?]
  | _ => simp [Flag.takesValue] at hflag

/-- Reading the layout of arguments that spell occurrences lists the fields that these ask for. -/
theorem layout_of_spells (h : Spells args os) : layout args = os.filterMap Occurrence.field? := by
  have hcons : ∀ (x : Occurrence) (os : List Occurrence),
      (x :: os).filterMap Occurrence.field? =
        x.field?.toList ++ os.filterMap Occurrence.field? := by
    intro x os
    rcases hx : x.field? with _ | field
    · simp [hx]
    · simp [hx]
  induction h with
  | nothing => rfl
  | closed => decide
  | plain hflag _ ih => rw [layout_plain hflag, hcons, ih]
  | attached hflag _ ih => rw [layout_attached hflag, hcons, ih]
  | separate hflag _ _ ih => rw [layout_separate hflag, hcons, ih]

/-! ## Options and fields -/

/-- Options tell of a list of fields how often each is in it, and which texts are printed. -/
structure Options.Tells (o : Options) (fields : List ReportField) : Prop where
  executed : o.executed = fields.count .executed
  hot : o.hot = fields.count .hot
  peak : o.peak = fields.count .peak
  frequent : o.frequent = fields.count .frequent
  lineBreaks : o.lineBreaks = fields.count .lineBreak
  prints : o.prints = fields.filterMap ReportField.printed?

/-- A path or help does not change what is told of the report. -/
theorem Options.Tells.of_unreported (h : o.Tells fields) (hx : x.field? = none)
    (hadd : o.add x = some o') : o'.Tells fields := by
  cases x with
  | plain flag =>
    cases flag with
    | help =>
      simp only [add, addFlag, Option.ite_none_left_eq_some, Option.some.injEq] at hadd
      obtain ⟨-, rfl⟩ := hadd
      exact ⟨h.executed, h.hot, h.peak, h.frequent, h.lineBreaks, h.prints⟩
    | source | input | stats | print => simp [add, addFlag] at hadd
    | _ => simp [Occurrence.field?] at hx
  | valued flag value =>
    cases flag with
    | source | input | stats =>
      obtain ⟨path, -, rfl⟩ := Option.map_eq_some_iff.mp hadd
      exact ⟨h.executed, h.hot, h.peak, h.frequent, h.lineBreaks, h.prints⟩
    | print => simp [Occurrence.field?] at hx
    | _ => simp [add, addValue] at hadd

/-- A field that is asked for is counted, or its text is kept behind the others. -/
theorem Options.Tells.of_reported {field : ReportField} (h : o.Tells fields)
    (hx : x.field? = some field) (hadd : o.add x = some o') : o'.Tells (fields ++ [field]) := by
  obtain ⟨hexecuted, hhot, hpeak, hfrequent, hlineBreaks, hprints⟩ := h
  cases x with
  | plain flag =>
    cases flag with
    | executed | hot | peak | frequent | lineBreak =>
      simp only [Occurrence.field?, Option.some.injEq] at hx
      simp only [add, addFlag, Option.some.injEq] at hadd
      subst hx hadd
      constructor <;> simp [*, ReportField.printed?]
    | _ => simp [Occurrence.field?] at hx
  | valued flag value =>
    cases flag with
    | print =>
      simp only [Occurrence.field?, Option.some.injEq] at hx
      simp only [add, addValue, Option.some.injEq] at hadd
      subst hx hadd
      constructor <;> simp [*, ReportField.printed?]
    | _ => simp [Occurrence.field?] at hx

/-- What is told of the report goes on as the fields do, over all occurrences. -/
theorem Options.Tells.foldlM (h : o.Tells fields) (hadd : os.foldlM Options.add o = some o') :
    o'.Tells (fields ++ os.filterMap Occurrence.field?) := by
  induction os generalizing o fields with
  | nil =>
    have hsame : o = o' := by simpa using hadd
    simpa [← hsame] using h
  | cons x os ih =>
    rw [List.foldlM_cons] at hadd
    obtain ⟨o₁, ho₁, hrest⟩ := Option.bind_eq_some_iff.mp hadd
    rcases hx : x.field? with _ | field
    · simpa [hx] using ih (h.of_unreported hx ho₁) hrest
    · simpa [hx] using ih (h.of_reported hx ho₁) hrest

/-- A report is asked for exactly if there is a field to report. -/
theorem Options.Tells.asksReport_iff (h : o.Tells fields) :
    o.asksReport = true ↔ fields ≠ [] := by
  unfold asksReport
  rw [h.executed, h.hot, h.peak, h.frequent, h.lineBreaks, h.prints]
  cases fields with
  | nil => simp
  | cons field rest => cases field <;> simp [ReportField.printed?]

/-! ## The two readings -/

/-- **The two readings of a command line agree.** Arguments that are understood spell occurrences of
flags, and the options are what these add up to. However they are spelled, the layout has one field
for each occurrence that asks for one, in the order of the arguments: no value adds a field or takes
one away. The options count the fields of the layout and hold its texts in order, and they ask for a
report exactly if the layout is not empty. -/
theorem layout_agrees (h : Options.ofArguments? args = some o) :
    (∃ os, Spells args os ∧ os.foldlM Options.add {} = some o) ∧
    (∀ os, Spells args os → layout args = os.filterMap Occurrence.field?) ∧
    (layout args).filterMap ReportField.printed? = o.prints ∧
    o.Tells (layout args) ∧
    (o.asksReport = true ↔ layout args ≠ []) := by
  obtain ⟨os, hos⟩ := exists_spells_of_read h
  have hadd : os.foldlM Options.add {} = some o := by
    rw [← read_of_spells hos]
    exact h
  have hnothing : Options.Tells {} [] := by
    constructor <;> rfl
  have htells : o.Tells (layout args) := by
    rw [layout_of_spells hos]
    exact hnothing.foldlM hadd
  exact ⟨⟨os, hos, hadd⟩, fun _ => layout_of_spells, htells.prints.symm, htells,
    htells.asksReport_iff⟩

/-- A command line with values that look like flags, hold equals signs, are empty or a hyphen. -/
def misleadingArguments : List String :=
  ["--source=--hot", "--stats", "-", "--print", "", "--hot", "--input", "in=--eol",
    "--print=--eol", "--insts", "--print=a=b", "--hot", "--"]

/-- The values that look like flags add no field, and none of the flags is taken for a value. -/
theorem layout_agrees_misleading :
    ∃ o, Options.ofArguments? misleadingArguments = some o ∧
      o.prints = ["", "--eol", "a=b"] ∧
      o.Tells [.print "", .hot, .print "--eol", .executed, .print "a=b", .hot] ∧
      o.asksReport = true := by
  have hread : Options.ofArguments? misleadingArguments = some
      { source := some "--hot", stats := some "-", input := some "in=--eol", hot := 2,
        executed := 1, prints := ["", "--eol", "a=b"] } := by decide +kernel
  have hlayout : layout misleadingArguments =
      [.print "", .hot, .print "--eol", .executed, .print "a=b", .hot] := by decide +kernel
  obtain ⟨-, -, hprints, htells, hasks⟩ := layout_agrees hread
  rw [hlayout] at hprints htells hasks
  exact ⟨_, hread, hprints.symm, htells, hasks.mpr (by simp)⟩

end CommandLine

end FrameCode
