import FrameCode.Text
import FrameCode.Binary64.Arithmetic
import FrameCode.Binary64.Hexadecimal

/-!
# Decimal notation of double-precision numbers

A decimal number is digits with at most one point among them, and an optional exponent; it is read
as the double nearest to its exact value, ties to even. The exact value is a ratio of natural
numbers, so `ofDecimal?` rounds once and needs no table of powers. Only magnitudes that surely
overflow or vanish are decided by the number of digits, which keeps the ratio small.
-/

namespace FrameCode.Binary64

open FrameCode.Text

/-- The exact decimal number `digits * 10 ^ exponent`. -/
structure Decimal where
  digits : Nat
  exponent : Int
deriving DecidableEq

namespace Decimal

/-- The number of decimal digits of a positive number, and one for zero. -/
def digitCount (n : Nat) : Nat :=
  (Nat.toDigits 10 n).length

/-- The double nearest to a decimal number. A number of at least `10 ^ 310` is past every finite
double, and one below `10 ^ -330` is nearer to zero than to the least positive double. -/
def toBinary64 (negative : Bool) (d : Decimal) : Binary64 :=
  let top := (digitCount d.digits : Int) + d.exponent
  if d.digits = 0 then zero negative
  else if 311 < top then infinity negative
  else if top < -330 then zero negative
  else if 0 ≤ d.exponent then round negative (d.digits * Nat.pow 10 d.exponent.toNat * unit) 1
  else round negative (d.digits * unit) (Nat.pow 10 (-d.exponent).toNat)

end Decimal

/-- An exponent that has reached this size does not grow any further. -/
def decimalExponentBound : Nat := 0x10000

/-- The size of a written decimal exponent: digits are taken in until the bound is reached. -/
def decimalExponent (digits : List Nat) : Nat :=
  digits.foldl (fun n d => if n < decimalExponentBound then n * 10 + d else n) 0

/-- The exponent that may follow the digits: nothing at all, or a mark, an optional sign and
digits. -/
def readDecimalExponent : Option (List Char) → Option Int
  | none => some 0
  | some cs =>
    let (negative, digits) := takeSign cs
    if digits.isEmpty then none
    else (digits? 10 digits).map fun ds =>
      if negative then -(decimalExponent ds : Int) else (decimalExponent ds : Int)

/-- Digits with at most one point among them and an optional exponent. -/
def readDecimal (cs : List Char) : Option Decimal := do
  let (significand, exponent?) := cutAt (fun c => c == 'e' || c == 'E') cs
  let (integer, fraction?) := cutAt (· == '.') significand
  let fraction := fraction?.getD []
  if integer.isEmpty && fraction.isEmpty then none
  else
    let before ← digits? 10 integer
    let after ← digits? 10 fraction
    let written ← readDecimalExponent exponent?
    return ⟨valueOf 10 (before ++ after), written - after.length⟩

/-- A number in decimal notation, without blanks around it: an optional sign, then a named number or
a decimal number. -/
def ofDecimal? (cs : List Char) : Option Binary64 :=
  let (negative, body) := takeSign cs
  readNamed negative body <|> (readDecimal body).map (·.toBinary64 negative)

end FrameCode.Binary64
