/-!
# Channels: input, output and diagnostics

A machine reads lines from an input and writes bytes to outputs. Both are values, and so are their
failures: an input may fail where it would end, and an output may take a limited number of bytes or
refuse to be flushed.

**Lines.** A line ends after a line feed or where the input ends. The line feed is not part of its
content, nor is a carriage return right before it; the last line of an input that ends without a
line feed keeps all its bytes.
-/

namespace FrameCode

/-! ## Input -/

/-- The bytes of an input that are still to be read. `failing` tells that reading fails where they
end. -/
structure Input where
  rest : List UInt8
  failing : Bool := false
deriving DecidableEq, Inhabited

namespace Input

def lineFeed : UInt8 := 10

def carriageReturn : UInt8 := 13

/-- The bytes up to and with the first line feed, and the bytes after it. -/
def cutLine : List UInt8 → List UInt8 × List UInt8
  | [] => ([], [])
  | b :: bs =>
    if b = lineFeed then ([b], bs)
    else (b :: (cutLine bs).1, (cutLine bs).2)

/-- The content of a line: without its line feed, and then without a carriage return before it. A
line that has no line feed keeps all its bytes. -/
def content (line : List UInt8) : List UInt8 :=
  if line.getLast? = some lineFeed then
    let body := line.dropLast
    if body.getLast? = some carriageReturn then body.dropLast else body
  else line

/-- The text of bytes that encode one. -/
def decode? (bytes : List UInt8) : Option String :=
  String.fromUTF8? ⟨bytes.toArray⟩

/-- The reason given when reading fails. -/
def refusal : String := "read refused"

/-- The next line as a text, and the input after it. There is no text at the end of the input, nor
for a line whose bytes encode none. Reading fails if it runs into the end of a failing input, whose
last bytes are lost then. -/
def readLine (s : Input) : Except String (Option String) × Input :=
  let (line, rest) := cutLine s.rest
  if s.failing && line.getLast? != some lineFeed then (.error refusal, { s with rest := [] })
  else if line.isEmpty then (.ok none, s)
  else (.ok (decode? (content line)), { s with rest := rest })

end Input

/-! ## Output -/

/-- Bytes written so far. At most `limit` bytes are taken in all, if there is a limit;
`refusesFlush` tells that the output fails when it is flushed. -/
structure Output where
  written : Array UInt8 := #[]
  limit : Option Nat := none
  refusesFlush : Bool := false
deriving DecidableEq, Inhabited

namespace Output

/-- The number of bytes out of `size` that an output still takes. -/
def room (s : Output) (size : Nat) : Nat :=
  match s.limit with
  | none => size
  | some limit => min size (limit - s.written.size)

/-- The reason given when a write fails. -/
def writeRefusal : String := "write refused"

/-- The reason given when a flush fails. -/
def flushRefusal : String := "flush refused"

/-- Whether an output takes all of a text, and the output after it. The bytes that fit are kept, and
an empty text always fits. -/
def write (s : Output) (text : String) : Except String Unit × Output :=
  let bytes := text.toUTF8.data
  let taken := s.room bytes.size
  let after := { s with written := s.written ++ bytes.extract 0 taken }
  (if taken = bytes.size then .ok () else .error writeRefusal, after)

/-- An output without a limit takes every text. -/
theorem write_of_unlimited {s : Output} (h : s.limit = none) (text : String) :
    s.write text = (.ok (), { s with written := s.written ++ text.toUTF8.data }) := by
  unfold write room
  rw [h]
  dsimp only
  rw [if_pos rfl, Array.extract_size]

def flush (s : Output) : Except String Unit :=
  if s.refusesFlush then .error flushRefusal else .ok ()

end Output

end FrameCode
