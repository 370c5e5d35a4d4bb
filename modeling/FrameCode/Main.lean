import FrameCode.CommandLine.Session

/-!
# The interpreter as a program

Everything that a session does is decided by `Session.ofArguments?`. What is left here is to look at
the surroundings and to write what the session leaves.
-/

namespace FrameCode.CommandLine

/-- All bytes that a stream still gives. -/
partial def readRest (stream : IO.FS.Stream) (before : ByteArray) : IO ByteArray := do
  let chunk ← stream.read 65536
  if chunk.isEmpty then return before else readRest stream (before ++ chunk)

/-- What an open file holds. -/
def readOpen (handle : IO.FS.Handle) : IO Opened :=
  try
    let content ← handle.readBinToEnd
    return .bytes content.toList
  catch _ => return .unreadable

/-- What a path opens as. -/
def openPath (path : String) : IO (Option Opened) :=
  try
    let handle ← IO.FS.Handle.mk path .read
    return some (← readOpen handle)
  catch _ => return none

/-- The surroundings of a request: only what it names is looked at. Paths are taken to be writable
until writing fails. -/
def surroundingsOf (i : RunRequest) : IO Surroundings := do
  let paths := i.source.toList ++ i.input.toList
  let opened ← paths.mapM fun path => do return (path, ← openPath path)
  let standardInput ←
    if i.source.isSome && i.input.isSome then pure ByteArray.empty
    else readRest (← IO.getStdin) ByteArray.empty
  return {
    file := fun path => (opened.lookup path).join
    standardInput := standardInput.toList
    writable := fun _ => true }

/-- The number of steps that a run may take: more than any computer makes. -/
def stepLimit : Nat := 1 <<< 62

/-- Writes what a session leaves on the standard streams, and gives its exit code. -/
def writeOut (session : Session) : IO UInt32 := do
  (← IO.getStdout).write ⟨session.output⟩
  (← IO.getStdout).flush
  (← IO.getStderr).write ⟨session.errors⟩
  return UInt32.ofNat session.exitCode

/-- Saves the report of a session, if it has one, and writes the rest. -/
def leave (session : Session) : IO UInt32 := do
  match session.saved with
  | none => writeOut session
  | some (path, report) =>
    let saved ← try
        IO.FS.writeFile path report
        pure true
      catch _ => pure false
    writeOut (if saved then session else session.unsaved)

/-- The interpreter: looks around, lets the session be decided and leaves what it left. -/
def interpret (args : List String) : IO UInt32 := do
  let surroundings ← match Command.ofArguments? args with
    | some (.run i) => surroundingsOf i
    | _ => pure ⟨fun _ => none, [], fun _ => true⟩
  match Session.ofArguments? stepLimit surroundings args with
  | some session => leave session
  | none => return UInt32.ofNat Session.usageError

end FrameCode.CommandLine

def main (args : List String) : IO UInt32 :=
  FrameCode.CommandLine.interpret args
