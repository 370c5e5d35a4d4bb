import FrameCode.CommandLine.Command
import FrameCode.Machine.Run
import FrameCode.Source.Load

/-!
# Sessions: the interpreter as a whole

A session is what one call of the interpreter does in its surroundings: it writes to standard output
and standard error, it may save a report, and it ends with an exit code. The surroundings are given
as a value: what paths open as, what standard input holds and which paths can be written. So the
session is a function, and only the reading and writing itself is left to the program around it.

The files named on the command line are opened before anything is read. Then the program is read,
loaded and run, and the report is saved last, and only after a run that went well.
-/

namespace FrameCode.CommandLine

/-- What a path opens as: bytes, or something that opens but cannot be read, as a directory. -/
inductive Opened where
  | bytes (content : List UInt8)
  | unreadable
deriving DecidableEq, Inhabited

/-- What the interpreter finds around it. Files can fail to open and to be read, but standard input
is always there: it is a list of bytes, and reading it never fails. -/
structure Surroundings where
  /-- what a path opens as, if it can be opened -/
  file : String → Option Opened
  standardInput : List UInt8
  /-- whether a report can be saved under a path, as a whole -/
  writable : String → Bool

/-- What a session leaves: its exit code, the bytes on standard output and standard error, and the
file it saved. -/
structure Session where
  exitCode : Nat
  output : Array UInt8 := #[]
  errors : Array UInt8 := #[]
  saved : Option (String × String) := none
deriving DecidableEq, Inhabited

namespace Session

/-- The exit code of a command line that is not a proper request. -/
def usageError : Nat := 10

/-- The exit code of a source or input that cannot be read. -/
def readError : Nat := 11

/-- The exit code of a report that cannot be saved. -/
def reportError : Nat := 12

/-- The bytes of a message. -/
def bytesOf (text : String) : Array UInt8 :=
  text.toUTF8.data

/-- A session that ends with a message and no output. -/
def failure (exitCode : Nat) (message : String) : Session :=
  { exitCode := exitCode, errors := bytesOf (message ++ "\n") }

/-- What a named file opens as, standard input if none is named; `none` if it cannot be opened. -/
def opened (w : Surroundings) : Option String → Option Opened
  | none => some (.bytes w.standardInput)
  | some path => w.file path

/-- The input of a run from what was opened for it. -/
def inputOf : Opened → Input
  | .bytes content => { rest := content }
  | .unreadable => { rest := [], failing := true }

/-- The program in what was opened as source, or the session that ends without it. -/
def programOf : Opened → Except Session Program
  | .unreadable => .error (failure readError "error: cannot read source")
  | .bytes content =>
    match (Input.decode? content).elim (.error .malformed) Source.load with
    | .ok p => .ok p
    | .error e => .error (failure e.exitCode ("error: " ++ e.message))

/-- A session whose report could not be saved. It has saved nothing: a report is written as a whole
or not at all, so a file that was there before is left as it was. -/
def unsaved (s : Session) : Session :=
  match s.saved with
  | none => s
  | some (path, _) =>
    { s with
      exitCode := reportError
      errors := s.errors ++ bytesOf ("error: cannot write '" ++ path ++ "'\n")
      saved := none }

/-- The session after a run, supposing that its report can be saved. -/
def ofFinish (report : Option (String × List ReportField)) (f : Machine.Finish) : Session :=
  let output := f.state.output.written
  let diagnostics := f.state.diagnostics.written
  match f.result with
  | .error e =>
    { exitCode := e.exitCode
      output := output
      errors := diagnostics ++ bytesOf ("runtime error: " ++ e.message ++ "\n") }
  | .ok code =>
    { exitCode := code
      output := output
      errors := diagnostics
      saved := report.map fun (path, fields) => (path, f.state.profile.render fields) }

/-- A session with its report saved where that is possible. -/
def saving (w : Surroundings) (s : Session) : Session :=
  match s.saved with
  | some (path, _) => if w.writable path then s else s.unsaved
  | none => s

/-- The session of a run, if the run takes at most the given number of steps. -/
def ofRunRequest? (fuel : Nat) (w : Surroundings) (i : RunRequest) : Option Session :=
  match opened w i.source, opened w i.input with
  | some source, some input =>
    match programOf source with
    | .error session => some session
    | .ok p =>
      (Machine.run? p fuel (.initial (inputOf input) {} {})).map fun f =>
        (ofFinish i.report f).saving w
  | _, _ => some (failure readError "error: cannot open a file")

/-- The session of a command line, if its run takes at most the given number of steps. -/
def ofArguments? (fuel : Nat) (w : Surroundings) (args : List String) : Option Session :=
  match Command.ofArguments? args with
  | none => some (failure usageError "error: the command line is not understood, see --help")
  | some .help => some { exitCode := 0, output := bytesOf helpText }
  | some (.run i) => ofRunRequest? fuel w i

end Session

end FrameCode.CommandLine
