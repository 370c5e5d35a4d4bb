import FrameCode.CommandLine.Session
import FrameCode.Proofs.Lines
import FrameCode.Proofs.Loading
import Mathlib.Logic.Function.Basic

/-!
# The contract of a session

A call of the interpreter goes through stages: the command line is understood, the files it names
are opened, the source is read and loaded, the program runs, and a report is saved. Each stage may
fail, and then none of the later ones leaves a trace.

Two relations tell how far a command line gets. `Fails` lists the failures before the run with their
exit codes, and `Starts` tells that a program is ready to run. Except for help, one of the two holds
(`fails_or_starts`). A failure leaves nothing but its code and a message
(`ofArguments?_of_fails`). A run leaves its output, whether it goes well or not, and its end decides
the rest (`Concludes`): only a run that went well saves a report, and only under the path that was
given for it.
-/

namespace FrameCode.CommandLine

open FrameCode.Machine

variable {w : Surroundings} {args : List String} {s t : Session} {p : Program} {input : Input}
  {report : Option (String × List ReportField)} {f : Finish} {code : Nat}

/-! ## What a session leaves -/

/-- What paths open as after a session: a report that was saved is found under its path. -/
def Surroundings.filesAfter (w : Surroundings) (s : Session) : String → Option Opened :=
  match s.saved with
  | none => w.file
  | some (path, text) => Function.update w.file path (some (.bytes (Text.encoded text)))

/-- The session that a command line leaves, if it comes to an end. -/
def Leaves (w : Surroundings) (args : List String) (s : Session) : Prop :=
  ∃ fuel, Session.ofArguments? fuel w args = some s

/-- The failures of a command line before its program runs, with their exit codes. A file that does
not open is a failure whatever the source holds. -/
inductive Fails (w : Surroundings) (args : List String) : Nat → Prop
  | usage (h : Command.ofArguments? args = none) : Fails w args 10
  | unopened {r : RunRequest} {path : String} (hr : Command.ofArguments? args = some (.run r))
    (hpath : r.source = some path ∨ r.input = some path) (h : w.file path = none) : Fails w args 11
  | unreadable {r : RunRequest} {path : String} {input : Opened}
    (hr : Command.ofArguments? args = some (.run r))
    (hinput : Session.opened w r.input = some input) (hpath : r.source = some path)
    (h : w.file path = some .unreadable) : Fails w args 11
  | noText {r : RunRequest} {content : List UInt8} {input : Opened}
    (hr : Command.ofArguments? args = some (.run r))
    (hinput : Session.opened w r.input = some input)
    (hsource : Session.opened w r.source = some (.bytes content))
    (h : ∀ text, Text.encoded text ≠ content) : Fails w args 31
  | unloaded {r : RunRequest} {text : String} {input : Opened} {e : SourceError}
    (hr : Command.ofArguments? args = some (.run r))
    (hinput : Session.opened w r.input = some input)
    (hsource : Session.opened w r.source = some (.bytes (Text.encoded text)))
    (h : Source.load text = .error e) : Fails w args e.exitCode

/-- A program is ready to run, on an input and with a report to save: the command line asks for a
run, its files opened, and the source was loaded. -/
inductive Starts (w : Surroundings) (args : List String) :
    Program → Input → Option (String × List ReportField) → Prop
  | loaded {r : RunRequest} {text : String} {input : Opened} {p : Program}
    (hr : Command.ofArguments? args = some (.run r))
    (hinput : Session.opened w r.input = some input)
    (hsource : Session.opened w r.source = some (.bytes (Text.encoded text)))
    (h : Source.load text = .ok p) : Starts w args p (Session.inputOf input) r.report

/-- The exit code after a run, and what paths open as then. -/
inductive Concludes (w : Surroundings) (report : Option (String × List ReportField)) (f : Finish) :
    Nat → (String → Option Opened) → Prop
  | fault {e : Fault} (h : f.result = .error e) : Concludes w report f e.exitCode w.file
  | plain {code : Nat} (h : f.result = .ok code) (hreport : report = none) :
    Concludes w report f code w.file
  | saved {code : Nat} {path : String} {fields : List ReportField} (h : f.result = .ok code)
    (hreport : report = some (path, fields)) (hwritable : w.writable path = true) :
    Concludes w report f code
      (Function.update w.file path
        (some (.bytes (Text.encoded (f.state.profile.render fields)))))
  | unsaved {code : Nat} {path : String} {fields : List ReportField} (h : f.result = .ok code)
    (hreport : report = some (path, fields)) (hwritable : w.writable path = false) :
    Concludes w report f 12 w.file

/-! ## Help stands alone -/

section Help

variable {arg : String} {o o' : Options} {flag : Flag}

theorem help_addValue {value : String} (h : o.addValue value flag = some o') :
    o'.help = o.help := by
  cases flag with
  | source | input | stats =>
    obtain ⟨path, -, rfl⟩ := Option.map_eq_some_iff.mp h
    rfl
  | print =>
    cases h
    rfl
  | _ => cases h

theorem help_addFlag (hflag : flag ≠ .help) (h : o.addFlag flag = some o') : o'.help = o.help := by
  cases flag with
  | help => exact absurd rfl hflag
  | executed | hot | peak | frequent | lineBreak =>
    cases h
    rfl
  | _ => cases h

/-- One argument that asks for help is the flag for it. -/
theorem eq_help_of_ofArguments? (h : Options.ofArguments? [arg] = some o)
    (hhelp : o.help = true) : arg = "--help" := by
  unfold Options.ofArguments? Options.read at h
  by_cases hend : arg = "--"
  · rw [if_pos hend] at h
    cases h
    cases hhelp
  · rw [if_neg hend] at h
    rcases hsplit : splitArgument arg with ⟨name, attached⟩
    rcases hflag : Flag.ofText? name with _ | flag
    · simp only [hsplit, hflag] at h
      cases h
    · simp only [hsplit, hflag] at h
      by_cases hvalue : flag.takesValue = true
      · rw [if_pos hvalue] at h
        rcases attached with _ | value
        · cases h
        · -- A value never sets the flag for help.
          obtain ⟨o', ho', hread⟩ := Option.bind_eq_some_iff.mp h
          cases hread
          rw [help_addValue ho'] at hhelp
          cases hhelp
      · rw [if_neg hvalue] at h
        rcases attached with _ | value
        · obtain ⟨o', ho', hread⟩ := Option.bind_eq_some_iff.mp h
          cases hread
          by_cases hflagHelp : flag = .help
          · have hnone : (splitArgument arg).2 = none := by rw [hsplit]
            have hname := fst_splitArgument_of_none hnone
            rw [hsplit] at hname
            rw [← hname, ← text_of_ofText? hflag, hflagHelp]
            rfl
          · rw [help_addFlag hflagHelp ho'] at hhelp
            cases hhelp
        · cases h

theorem eq_of_help (h : Command.ofArguments? args = some .help) : args = ["--help"] := by
  obtain ⟨o, ho, h⟩ := Option.bind_eq_some_iff.mp h
  by_cases hhelp : o.help = true
  · rw [if_pos hhelp] at h
    by_cases hlength : args.length = 1
    · obtain ⟨arg, rfl⟩ := List.length_eq_one_iff.mp hlength
      rw [eq_help_of_ofArguments? ho hhelp]
    · rw [if_neg hlength] at h
      cases h
  · -- Without the flag for help there is a run or nothing.
    rw [if_neg hhelp] at h
    split at h
    · cases h
    · split at h
      · cases h
      · cases h

end Help

/-! ## Before the run -/

theorem opened_eq_none {name : Option String} (h : Session.opened w name = none) :
    ∃ path, name = some path ∧ w.file path = none := by
  cases name with
  | none => cases h
  | some path => exact ⟨path, rfl, h⟩

section Stages

variable {r : RunRequest} {source input : Opened} {text : String} {content : List UInt8}

/-- A file that does not open ends the session before anything is read. -/
theorem ofRunRequest?_of_unopened
    (h : Session.opened w r.source = none ∨ Session.opened w r.input = none) (fuel : Nat) :
    Session.ofRunRequest? fuel w r = some (Session.failure 11 "error: cannot open a file") := by
  unfold Session.ofRunRequest?
  rcases h with h | h
  · rw [h]
    rfl
  · rw [h]
    rcases Session.opened w r.source with _ | source
    · rfl
    · rfl

theorem ofRunRequest?_of_error {session : Session}
    (hsource : Session.opened w r.source = some source)
    (hinput : Session.opened w r.input = some input)
    (h : Session.programOf source = .error session) (fuel : Nat) :
    Session.ofRunRequest? fuel w r = some session := by
  unfold Session.ofRunRequest?
  rw [hsource, hinput]
  dsimp only
  rw [h]

theorem ofRunRequest?_of_ok (hsource : Session.opened w r.source = some source)
    (hinput : Session.opened w r.input = some input) (h : Session.programOf source = .ok p)
    (fuel : Nat) :
    Session.ofRunRequest? fuel w r =
      (run? p fuel (.initial (Session.inputOf input) {} {})).map fun f =>
        (Session.ofFinish r.report f).saving w := by
  unfold Session.ofRunRequest?
  rw [hsource, hinput]
  dsimp only
  rw [h]

theorem programOf_of_noText (h : ∀ text, Text.encoded text ≠ content) :
    Session.programOf (.bytes content) =
      .error (Session.failure 31 ("error: " ++ SourceError.malformed.message)) := by
  unfold Session.programOf
  dsimp only
  rw [Input.decode?_eq_none_iff.mpr h]
  rfl

theorem programOf_of_load_error {e : SourceError} (h : Source.load text = .error e) :
    Session.programOf (.bytes (Text.encoded text)) =
      .error (Session.failure e.exitCode ("error: " ++ e.message)) := by
  unfold Session.programOf
  dsimp only
  rw [Input.decode?_encoded, Option.elim_some, h]

theorem programOf_of_load_ok (h : Source.load text = .ok p) :
    Session.programOf (.bytes (Text.encoded text)) = .ok p := by
  unfold Session.programOf
  dsimp only
  rw [Input.decode?_encoded, Option.elim_some, h]

end Stages

theorem ofArguments?_of_run {r : RunRequest} (hr : Command.ofArguments? args = some (.run r))
    (fuel : Nat) : Session.ofArguments? fuel w args = Session.ofRunRequest? fuel w r := by
  unfold Session.ofArguments?
  rw [hr]

/-- A failure before the run leaves a message and its exit code. -/
theorem ofArguments?_of_fails (h : Fails w args code) :
    ∃ message, ∀ fuel,
      Session.ofArguments? fuel w args = some (Session.failure code message) := by
  cases h with
  | usage h =>
    refine ⟨"error: the command line is not understood, see --help", fun fuel => ?_⟩
    unfold Session.ofArguments?
    rw [h]
    rfl
  | @unopened r path hr hpath h =>
    have hopened : Session.opened w r.source = none ∨ Session.opened w r.input = none := by
      rcases hpath with hpath | hpath
      · rw [hpath]
        exact .inl h
      · rw [hpath]
        exact .inr h
    exact ⟨_, fun fuel =>
      (ofArguments?_of_run hr fuel).trans (ofRunRequest?_of_unopened hopened fuel)⟩
  | @unreadable r path _ hr hinput hpath h =>
    have hsource : Session.opened w r.source = some .unreadable := by
      rw [hpath]
      exact h
    exact ⟨_, fun fuel =>
      (ofArguments?_of_run hr fuel).trans (ofRunRequest?_of_error hsource hinput rfl fuel)⟩
  | noText hr hinput hsource h =>
    exact ⟨_, fun fuel => (ofArguments?_of_run hr fuel).trans
      (ofRunRequest?_of_error hsource hinput (programOf_of_noText h) fuel)⟩
  | unloaded hr hinput hsource h =>
    exact ⟨_, fun fuel => (ofArguments?_of_run hr fuel).trans
      (ofRunRequest?_of_error hsource hinput (programOf_of_load_error h) fuel)⟩

theorem exitCode_mem_of_fails (h : Fails w args code) : code ∈ [10, 11, 31, 32, 52] := by
  cases h with
  | usage | unopened | unreadable | noText => decide
  | @unloaded _ _ _ e =>
    cases e with
    | _ => simp [SourceError.exitCode]

/-- A program that is ready is run, and its end makes the session. -/
theorem ofArguments?_of_starts (h : Starts w args p input report) (fuel : Nat) :
    Session.ofArguments? fuel w args =
      (run? p fuel (.initial input {} {})).map fun f => (Session.ofFinish report f).saving w := by
  cases h with
  | loaded hr hinput hsource h =>
    rw [ofArguments?_of_run hr, ofRunRequest?_of_ok hsource hinput (programOf_of_load_ok h)]

/-- Every command line but the one for help fails or starts a program. -/
theorem fails_or_starts (hargs : args ≠ ["--help"]) (w : Surroundings) :
    (∃ code, Fails w args code) ∨ ∃ p input report, Starts w args p input report := by
  rcases hr : Command.ofArguments? args with _ | _ | r
  · exact .inl ⟨10, .usage hr⟩
  · exact absurd (eq_of_help hr) hargs
  · rcases hsource : Session.opened w r.source with _ | source
    · obtain ⟨path, hpath, h⟩ := opened_eq_none hsource
      exact .inl ⟨11, .unopened hr (.inl hpath) h⟩
    · rcases hinput : Session.opened w r.input with _ | input
      · obtain ⟨path, hpath, h⟩ := opened_eq_none hinput
        exact .inl ⟨11, .unopened hr (.inr hpath) h⟩
      · cases source with
        | unreadable =>
          rcases hpath : r.source with _ | path
          · rw [hpath] at hsource
            cases hsource
          · rw [hpath] at hsource
            exact .inl ⟨11, .unreadable hr hinput hpath hsource⟩
        | bytes content =>
          by_cases htext : ∃ text, Text.encoded text = content
          · obtain ⟨text, rfl⟩ := htext
            rcases hload : Source.load text with e | p
            · exact .inl ⟨e.exitCode, .unloaded hr hinput hsource hload⟩
            · exact .inr ⟨p, _, _, .loaded hr hinput hsource hload⟩
          · exact .inl ⟨31, .noText hr hinput hsource fun text h => htext ⟨text, h⟩⟩

/-- A failure is decided without a step of a run, so there is no program that could run. -/
theorem not_starts_of_fails (h : Fails w args code) : ¬Starts w args p input report := by
  intro hstarts
  obtain ⟨message, hsession⟩ := ofArguments?_of_fails h
  have hnone := ofArguments?_of_starts hstarts 0
  rw [hsession 0] at hnone
  cases hnone

/-! ## After the run -/

/-- The output of a run stays, whatever comes of the report. -/
theorem output_saving (w : Surroundings) (s : Session) : (s.saving w).output = s.output := by
  unfold Session.saving Session.unsaved
  split
  · split
    · rfl
    · split
      · rfl
      · rfl
  · rfl

theorem output_ofFinish (report : Option (String × List ReportField)) (f : Finish) :
    (Session.ofFinish report f).output = f.state.output.written := by
  unfold Session.ofFinish
  split
  · rfl
  · rfl

/-- The end of a run decides the exit code and what is saved. -/
theorem concludes_saving (w : Surroundings) (report : Option (String × List ReportField))
    (f : Finish) :
    Concludes w report f ((Session.ofFinish report f).saving w).exitCode
      (w.filesAfter ((Session.ofFinish report f).saving w)) := by
  unfold Session.ofFinish
  rcases hresult : f.result with e | code
  · exact .fault hresult
  · rcases report with _ | ⟨path, fields⟩
    · exact .plain hresult rfl
    · unfold Session.saving
      dsimp only [Option.map_some]
      by_cases hwritable : w.writable path = true
      · rw [if_pos hwritable]
        exact .saved hresult rfl hwritable
      · rw [if_neg hwritable]
        exact .unsaved hresult rfl (Bool.eq_false_iff.mpr hwritable)

theorem Leaves.unique (hargs : args ≠ ["--help"]) (h : Leaves w args s) (h' : Leaves w args t) :
    s = t := by
  obtain ⟨fuel, hs⟩ := h
  obtain ⟨fuel', ht⟩ := h'
  rcases fails_or_starts hargs w with ⟨code, hfails⟩ | ⟨p, input, report, hstarts⟩
  · obtain ⟨message, hsession⟩ := ofArguments?_of_fails hfails
    rw [hsession] at hs ht
    exact Option.some.inj (hs.symm.trans ht)
  · rw [ofArguments?_of_starts hstarts] at hs ht
    obtain ⟨f, hf, rfl⟩ := Option.map_eq_some_iff.mp hs
    obtain ⟨g, hg, rfl⟩ := Option.map_eq_some_iff.mp ht
    rw [Ends.unique ⟨fuel, hf⟩ ⟨fuel', hg⟩]

/-- **The contract of a session.** A command line that does not ask for help fails, or it starts a
program. If it fails, the exit code tells the failure, nothing is written to standard output and no
file changes. If it starts a program whose run ends, standard output is what the program wrote until
then. A runtime error gives the exit code and leaves all files as they were; otherwise the exit code
is that of the program, and a report is saved under the path that was given for it, or the exit code
tells that this was not possible. No other file changes, and a command line leaves one session
only. -/
theorem session_contract (hargs : args ≠ ["--help"]) (w : Surroundings) :
    ((∃ code, Fails w args code) ↔ ¬∃ p input report, Starts w args p input report) ∧
    (∀ code, Fails w args code →
      code ∈ [10, 11, 31, 32, 52] ∧
      ∃ s, Leaves w args s ∧ s.exitCode = code ∧ s.output = #[] ∧ w.filesAfter s = w.file) ∧
    (∀ p input report f, Starts w args p input report → Ends p (.initial input {} {}) f →
      ∃ s, Leaves w args s ∧ s.output = f.state.output.written ∧
        Concludes w report f s.exitCode (w.filesAfter s)) ∧
    ∀ s t, Leaves w args s → Leaves w args t → s = t := by
  refine ⟨⟨?_, ?_⟩, ?_, ?_, ?_⟩
  · rintro ⟨code, hfails⟩ ⟨p, input, report, hstarts⟩
    exact not_starts_of_fails hfails hstarts
  · intro hnone
    exact (fails_or_starts hargs w).resolve_right hnone
  · intro code hfails
    obtain ⟨message, hsession⟩ := ofArguments?_of_fails hfails
    exact ⟨exitCode_mem_of_fails hfails, _, ⟨0, hsession 0⟩, rfl, rfl, rfl⟩
  · rintro p input report f hstarts ⟨fuel, hf⟩
    refine ⟨_, ⟨fuel, ?_⟩, ?_, concludes_saving w report f⟩
    · rw [ofArguments?_of_starts hstarts, hf, Option.map_some]
    · rw [output_saving, output_ofFinish]
  · intro s t
    exact Leaves.unique hargs

/-- A document without instructions. -/
def idleDocument : String :=
  "<program language=\"IPPcode23\"/>"

theorem load_idleDocument : Source.load idleDocument = .ok ⟨#[], .empty⟩ :=
  Checks.eq_ok_of_toOption (by decide +kernel)

/-- A program that does nothing, one that pops from an empty stack, a file that is no text, and an
older report. -/
def fewFiles : Surroundings where
  file := fun path =>
    if path = "idle" then some (.bytes (Text.encoded idleDocument))
    else if path = "pop" then some (.bytes (Text.encoded popDocument))
    else if path = "noise" then some (.bytes [0xff])
    else if path = "report" then some (.bytes [0x37])
    else none
  standardInput := []
  writable := fun _ => true

/-- An input that does not open goes before a source that is no text. A runtime error leaves the
older report as it was, and a run that goes well replaces it. -/
theorem session_contract_fewFiles :
    (∃ s, Leaves fewFiles ["--source=noise", "--input=missing"] s ∧ s.exitCode = 11 ∧
      s.output = #[]) ∧
    (∃ s, Leaves fewFiles ["--source=pop", "--stats=report", "--insts"] s ∧ s.exitCode = 54 ∧
      fewFiles.filesAfter s "report" = some (.bytes [0x37])) ∧
    ∃ s, Leaves fewFiles ["--source=idle", "--stats=report", "--insts"] s ∧ s.exitCode = 0 ∧
      fewFiles.filesAfter s "report" = some (.bytes (Text.encoded "0")) := by
  have hinput : Session.opened fewFiles none = some (.bytes []) := by
    simp [Session.opened, fewFiles]
  refine ⟨?_, ?_, ?_⟩
  · have hcommand : Command.ofArguments? ["--source=noise", "--input=missing"] =
        some (.run ⟨some "noise", some "missing", none⟩) := by decide +kernel
    have hmissing : fewFiles.file "missing" = none := by simp [fewFiles]
    have hargs : ["--source=noise", "--input=missing"] ≠ ["--help"] := by decide
    obtain ⟨-, hfail, -⟩ := session_contract hargs fewFiles
    obtain ⟨-, s, hs, hcode, hout, -⟩ := hfail 11 (.unopened hcommand (.inr rfl) hmissing)
    exact ⟨s, hs, hcode, hout⟩
  · have hcommand : Command.ofArguments? ["--source=pop", "--stats=report", "--insts"] =
        some (.run ⟨some "pop", none, some ("report", [.executed])⟩) := by decide +kernel
    have hsource : Session.opened fewFiles (some "pop") =
        some (.bytes (Text.encoded popDocument)) := by simp [Session.opened, fewFiles]
    have hreport : fewFiles.file "report" = some (.bytes [0x37]) := by simp [fewFiles]
    have hargs : ["--source=pop", "--stats=report", "--insts"] ≠ ["--help"] := by decide
    obtain ⟨-, -, hrun, -⟩ := session_contract hargs fewFiles
    obtain ⟨s, hs, -, hend⟩ :=
      hrun _ _ _ _ (.loaded hcommand hinput hsource load_popDocument) ⟨1, rfl⟩
    refine ⟨s, hs, ?_⟩
    generalize s.exitCode = code at hend ⊢
    generalize fewFiles.filesAfter s = files at hend ⊢
    cases hend with
    | fault h =>
      cases h
      exact ⟨rfl, hreport⟩
    | plain h | saved h | unsaved h => cases h
  · have hcommand : Command.ofArguments? ["--source=idle", "--stats=report", "--insts"] =
        some (.run ⟨some "idle", none, some ("report", [.executed])⟩) := by decide +kernel
    have hsource : Session.opened fewFiles (some "idle") =
        some (.bytes (Text.encoded idleDocument)) := by simp [Session.opened, fewFiles]
    have hargs : ["--source=idle", "--stats=report", "--insts"] ≠ ["--help"] := by decide
    obtain ⟨-, -, hrun, -⟩ := session_contract hargs fewFiles
    obtain ⟨s, hs, -, hend⟩ :=
      hrun _ _ _ _ (.loaded hcommand hinput hsource load_idleDocument) ⟨1, rfl⟩
    refine ⟨s, hs, ?_⟩
    generalize s.exitCode = code at hend ⊢
    generalize fewFiles.filesAfter s = files at hend ⊢
    cases hend with
    | fault h => cases h
    | plain _ hreport => cases hreport
    | saved h hreport =>
      cases h
      cases hreport
      exact ⟨rfl, Function.update_self ..⟩
    | unsaved _ _ hwritable => cases hwritable

end FrameCode.CommandLine
