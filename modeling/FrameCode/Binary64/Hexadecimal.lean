import FrameCode.Text
import FrameCode.Binary64.Arithmetic

/-!
# Hexadecimal notation of double-precision numbers

A number is written as a hexadecimal significand and a binary exponent, `0x1.8000000000000p+1` for
three. Writing is exact: a normal number has the leading digit one and thirteen digits after the
point, a subnormal one has the leading digit zero and the exponent of the least normal number.

Reading takes any number of digits. `Significand.push` keeps the first sixty significant bits and
remembers in one flag whether a later digit was not zero; that flag is merged into the lowest bit,
which is far below the last bit of a double and so only breaks ties the right way. The significand
is then rounded to a double and multiplied by powers of two, at most `2 ^ 1000` at a time (`scale`).
-/

namespace FrameCode.Binary64

open FrameCode.Text

/-! ## Writing -/

/-- The hexadecimal digit of a number below sixteen. -/
def hexDigit (d : Nat) : Char :=
  Char.ofNat (if d < 10 then 0x30 + d else 0x57 + d)

/-- The last `width` hexadecimal digits of a number, leading zeros included. -/
def hexDigits : Nat → Nat → List Char
  | 0, _ => []
  | width + 1, n => hexDigits width (n / 16) ++ [hexDigit (n % 16)]

/-- The hexadecimal notation of a number. -/
def toHex (x : Binary64) : String :=
  let sign := if x.isNegative then "-" else ""
  let digits := String.ofList (hexDigits 13 x.fraction)
  if x.isNaN then "nan"
  else if x.isInfinite then sign ++ "inf"
  else if x.isZero then sign ++ "0x0.0p+0"
  else if x.exponentField = 0 then sign ++ "0x0." ++ digits ++ "p-1022"
  else sign ++ "0x1." ++ digits ++ "p" ++ signedDecimal ((x.exponentField : Int) - 1023)

/-! ## Collecting digits -/

/-- What has been read of a significand: its value is about `mantissa * 2 ^ exponent`, and `sticky`
tells whether digits other than zero were left out of the mantissa. -/
structure Significand where
  mantissa : Nat
  exponent : Int
  sticky : Bool
deriving DecidableEq

namespace Significand

/-- Nothing read yet. -/
def empty : Significand := ⟨0, 0, false⟩

/-- Whether another digit still fits: the mantissa has at most 56 bits. -/
def hasRoom (s : Significand) : Bool :=
  s.mantissa >>> 56 == 0

/-- One more digit before the point. -/
def pushInteger (s : Significand) (d : Nat) : Significand :=
  if s.hasRoom then { s with mantissa := s.mantissa * 16 + d }
  else { s with exponent := s.exponent + 4, sticky := s.sticky || d != 0 }

/-- One more digit after the point. -/
def pushFraction (s : Significand) (d : Nat) : Significand :=
  if s.hasRoom then { s with mantissa := s.mantissa * 16 + d, exponent := s.exponent - 4 }
  else { s with sticky := s.sticky || d != 0 }

/-- The significand of digits before and after the point. -/
def ofDigits (integer fraction : List Nat) : Significand :=
  fraction.foldl pushFraction (integer.foldl pushInteger empty)

/-- The mantissa with its lowest bit set if digits were left out. -/
def merged (s : Significand) : Nat :=
  if s.sticky then s.mantissa ||| 1 else s.mantissa

end Significand

/-! ## Scaling by a power of two -/

/-- The normal number `2 ^ e`, for `e` from `-1022` to `1023`. -/
def powerOfTwo (e : Int) : Binary64 :=
  ofMagnitude false ((e + 1023).toNat * binade)

/-- A number multiplied a number of times by a factor, with rounding after each product. -/
def mulRepeat (factor : Binary64) : Nat → Binary64 → Binary64
  | 0, x => x
  | n + 1, x => mulRepeat factor n (mul x factor)

/-- `x * 2 ^ e`, computed as products with at most `2 ^ 1000` or `2 ^ -1000` each, the rest of the
exponent last. -/
def scale (x : Binary64) (e : Int) : Binary64 :=
  let steps := (e.natAbs - 1) / 1000
  if 0 ≤ e then mul (mulRepeat (powerOfTwo 1000) steps x) (powerOfTwo (e - 1000 * steps))
  else mul (mulRepeat (powerOfTwo (-1000)) steps x) (powerOfTwo (e + 1000 * steps))

/-- Scaling with a look at each product: it ends early at an infinity on the way up and at a zero on
the way down. The number is the same (`scaleLoop_eq`). -/
def scaleLoop (x : Binary64) (e : Int) : Binary64 :=
  if 1000 < e then
    let y := mul x (powerOfTwo 1000)
    if y.isInfinite then y else scaleLoop y (e - 1000)
  else if e < -1000 then
    let y := mul x (powerOfTwo (-1000))
    if y.isZero then y else scaleLoop y (e + 1000)
  else mul x (powerOfTwo e)
termination_by e.natAbs

/-! ## Reading -/

/-- The exponent after the mark: an optional sign and decimal digits. `cut` is applied to
its size. -/
def readExponent (cut : Nat → Nat) (cs : List Char) : Option Int :=
  let (negative, digits) := takeSign cs
  if digits.isEmpty then none
  else (digits? 10 digits).map fun ds =>
    let n := cut (valueOf 10 ds)
    if negative then -(n : Int) else (n : Int)

/-- What follows an optional `0x`. -/
def dropHexMark : List Char → List Char
  | '0' :: 'x' :: rest => rest
  | '0' :: 'X' :: rest => rest
  | cs => cs

/-- The digits of a significand before and after the first point; at least one is needed. -/
def readSignificand (cs : List Char) : Option Significand :=
  let (integer, fraction?) := cutAt (· == '.') cs
  let fraction := fraction?.getD []
  if integer.isEmpty && fraction.isEmpty then none
  else do
    let before ← digits? 16 integer
    let after ← digits? 16 fraction
    return Significand.ofDigits before after

/-- A significand and an optional exponent, without sign. -/
def readHexMagnitude (cut : Nat → Nat) (cs : List Char) : Option Binary64 := do
  let (digits, exponent?) := cutAt (fun c => c == 'p' || c == 'P') (dropHexMark cs)
  let significand ← readSignificand digits
  let written ← match exponent? with
    | none => some 0
    | some cs => readExponent cut cs
  return scale (ofNat false significand.merged) (significand.exponent + written)

/-- The named numbers `inf`, `infinity` and `nan`, in letters of any case. The sign is given apart
and does not matter for `nan`. -/
def readNamed (negative : Bool) (cs : List Char) : Option Binary64 :=
  if sameLetters cs ['i', 'n', 'f'] || sameLetters cs ['i', 'n', 'f', 'i', 'n', 'i', 't', 'y'] then
    some (infinity negative)
  else if sameLetters cs ['n', 'a', 'n'] then some nan
  else none

/-- A number in hexadecimal notation, blanks around it ignored: an optional sign, then a named
number or a significand whose `0x` and exponent may be missing. `cut` is applied to the size of a
written exponent. -/
def ofHexWith? (cut : Nat → Nat) (text : List Char) : Option Binary64 :=
  let (negative, body) := takeSign (trim text)
  readNamed negative body <|>
    (readHexMagnitude cut body).map fun x => if negative then neg x else x

/-- The largest size of a written exponent that is told apart; larger ones count as this one. -/
def exponentBound : Nat := 100000

/-- A number in hexadecimal notation. -/
def ofHex? (text : List Char) : Option Binary64 :=
  ofHexWith? (min exponentBound) text

end FrameCode.Binary64
