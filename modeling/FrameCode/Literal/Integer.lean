import FrameCode.Text

/-!
# Integer literals

An integer literal is an optional sign and digits: decimal ones, or hexadecimal, octal or binary
ones after `0x`, `0o` or `0b`. Single underscores may stand between digits, and one may stand right
after the mark of the base. A decimal literal starts with a zero only if all its digits are zeros.
The value has to fit a signed 64-bit word.

The literal is read twice over here. `int?` takes its parts one by one and computes with natural
numbers of any size. `scanInt?` goes through the digits once, keeps the few things it has to know
about them (`Scan`), and computes in signed 128-bit words, giving up when one overflows. Both read
the same integers (`scanInt?_eq`).
-/

namespace FrameCode.Literal

open FrameCode.Text

/-- Digits of a base with single underscores between some of them. -/
def separatedDigits? (base : Nat) : List Char → Option (List Nat)
  | [] => none
  | [c] => (digitValue? base c).map ([·])
  | c :: '_' :: rest => do
    let d ← digitValue? base c
    let ds ← separatedDigits? base rest
    return d :: ds
  | c :: rest => do
    let d ← digitValue? base c
    let ds ← separatedDigits? base rest
    return d :: ds

/-- The base that the letter after a leading zero announces. -/
def markedBase? (c : Char) : Option Nat :=
  match c.toLower with
  | 'x' => some 16
  | 'o' => some 8
  | 'b' => some 2
  | _ => none

/-- Digits after the mark of their base, one underscore between mark and digits allowed. -/
def markedDigits? (base : Nat) : List Char → Option (List Nat)
  | '_' :: rest => separatedDigits? base rest
  | cs => separatedDigits? base cs

/-- Digits that start with a zero although one of them is not zero. -/
def hasLeadingZero : List Nat → Bool
  | 0 :: rest => rest.any (· != 0)
  | _ => false

/-- Decimal digits without a leading zero. -/
def decimalDigits? (cs : List Char) : Option (List Nat) :=
  (separatedDigits? 10 cs).filter fun ds => !hasLeadingZero ds

/-- The number that an integer literal without sign denotes. -/
def magnitude? (cs : List Char) : Option Nat :=
  match cs with
  | '0' :: c :: rest =>
    match markedBase? c with
    | some base => (markedDigits? base rest).map (valueOf base)
    | none => (decimalDigits? cs).map (valueOf 10)
  | _ => (decimalDigits? cs).map (valueOf 10)

/-- The integers that a signed 64-bit word holds. -/
def fitsWord (n : Int) : Bool :=
  decide (Int64.minValue.toInt ≤ n) && decide (n ≤ Int64.maxValue.toInt)

/-- The value of an integer literal with blanks around it; `none` if the text is no literal or its
value does not fit a word. -/
def int? (text : List Char) : Option Int64 :=
  let (negative, body) := takeSign (trim text)
  (magnitude? body).bind fun m =>
    let n : Int := if negative then -(m : Int) else (m : Int)
    if fitsWord n then some (Int64.ofInt n) else none

/-! ## Reading in one pass -/

/-- What is known of the characters gone through: the number so far, how many digits there were,
whether an underscore would be out of place, the first digit, and whether all digits were zeros. -/
structure Scan where
  magnitude : Nat
  count : Nat
  afterUnderscore : Bool
  first : Option Nat
  allZero : Bool
deriving DecidableEq, Inhabited

namespace Scan

/-- Before the first character an underscore is as much out of place as behind another one. -/
def start : Scan := ⟨0, 0, true, none, true⟩

/-- The largest number of a signed 128-bit word, `2 ^ 127 - 1`. -/
def bound : Nat := 0x7FFFFFFFFFFFFFFFFFFFFFFFFFFFFFFF

/-- A number that a signed 128-bit word holds. -/
def checked (n : Nat) : Option Nat :=
  if n ≤ bound then some n else none

/-- One more character. -/
def step (base : Nat) (s : Scan) (c : Char) : Option Scan :=
  if c = '_' then
    if s.afterUnderscore then none else some { s with afterUnderscore := true }
  else do
    let d ← digitValue? base c
    let product ← checked (s.magnitude * base)
    let sum ← checked (product + d)
    return ⟨sum, s.count + 1, false, s.first <|> some d, s.allZero && d == 0⟩

/-- The number, once all characters are gone through. -/
def number? (base : Nat) (s : Scan) : Option Nat :=
  if s.count = 0 ∨ s.afterUnderscore then none
  else if base = 10 ∧ 1 < s.count ∧ s.first = some 0 ∧ !s.allZero then none
  else some s.magnitude

end Scan

/-- The number that digits of a base denote. -/
def scanDigits? (base : Nat) (cs : List Char) : Option Nat := do
  let s ← cs.foldlM (Scan.step base) Scan.start
  s.number? base

/-- The base of a literal without sign, whether it is marked, and what follows the mark. -/
def splitMark : List Char → Nat × Bool × List Char
  | '0' :: c :: rest =>
    match markedBase? c with
    | some base => (base, true, rest)
    | none => (10, false, '0' :: c :: rest)
  | cs => (10, false, cs)

/-- What follows one underscore behind the mark of a base. -/
def dropUnderscore (marked : Bool) : List Char → List Char
  | '_' :: rest => if marked then rest else '_' :: rest
  | cs => cs

/-- The number that an integer literal without sign denotes. -/
def scanMagnitude? (cs : List Char) : Option Nat :=
  let (base, marked, rest) := splitMark cs
  scanDigits? base (dropUnderscore marked rest)

/-- The value of an integer literal with blanks around it, computed in signed 128-bit words. -/
def scanInt? (text : List Char) : Option Int64 := do
  let (negative, body) := takeSign (trim text)
  let m ← scanMagnitude? body
  let n : Int := if negative then -(m : Int) else (m : Int)
  if fitsWord n then some (Int64.ofInt n) else none

end FrameCode.Literal
