import FrameCode.Binary64.Basic

/-!
# Arithmetic and order of double-precision numbers

Each operation forms its exact result as a ratio of quanta and rounds it once, ties to even; the
infinities, the signed zeros and NaN follow the rules of the standard for binary floating point. A
NaN compares with nothing, not even with itself, and the two zeros are equal.
-/

namespace FrameCode.Binary64

/-! ## Arithmetic -/

/-- The number with the opposite sign; a NaN stays one. -/
def neg (x : Binary64) : Binary64 :=
  ofMagnitude (!x.isNegative) x.magnitude

/-- The sum. Opposite numbers add up to the positive zero, and only two negative zeros to the
negative one. -/
def add (x y : Binary64) : Binary64 :=
  if x.isNaN || y.isNaN then nan
  else if x.isInfinite then
    if y.isInfinite && x.isNegative != y.isNegative then nan else x
  else if y.isInfinite then y
  else
    let s := x.signedQuanta + y.signedQuanta
    if s = 0 then zero (x.isNegative && y.isNegative)
    else round (decide (s < 0)) s.natAbs 1

def sub (x y : Binary64) : Binary64 :=
  add x (neg y)

/-- The product. An infinity times a zero is no number. -/
def mul (x y : Binary64) : Binary64 :=
  let negative := x.isNegative != y.isNegative
  if x.isNaN || y.isNaN then nan
  else if x.isInfinite || y.isInfinite then
    if x.isZero || y.isZero then nan else infinity negative
  else round negative (x.quanta * y.quanta) unit

/-- The quotient. -/
def div (x y : Binary64) : Binary64 :=
  let negative := x.isNegative != y.isNegative
  if x.isNaN || y.isNaN then nan
  else if x.isInfinite then
    if y.isInfinite then nan else infinity negative
  else if y.isInfinite then zero negative
  else if y.isZero then
    if x.isZero then nan else infinity negative
  else round negative (x.quanta * unit) y.quanta

/-! ## Order -/

/-- The rank of the positive infinity. Finite numbers stay below `2 ^ 1024` units, far less than
these `2 ^ 1074`. -/
def infinityRank : Nat := unit * unit

/-- The place of a number that is no NaN among all of them: its exact value in quanta, and for the
infinities a bound above every finite one. -/
def rank (x : Binary64) : Int :=
  if x.isInfinite then
    if x.isNegative then -(infinityRank : Int) else (infinityRank : Int)
  else x.signedQuanta

/-- Equality of numbers: false for a NaN, true for the two zeros. -/
def equal (x y : Binary64) : Bool :=
  !x.isNaN && !y.isNaN && decide (x.rank = y.rank)

/-- `x < y`, false if one of them is a NaN. -/
def less (x y : Binary64) : Bool :=
  !x.isNaN && !y.isNaN && decide (x.rank < y.rank)

/-! ## Integers -/

/-- The number nearest to a natural number, with a sign. -/
def ofNat (negative : Bool) (n : Nat) : Binary64 :=
  round negative (n * unit) 1

/-- The number nearest to an integer. -/
def ofInt (n : Int) : Binary64 :=
  ofNat (decide (n < 0)) n.natAbs

/-! ## Digits after the point -/

/-- The magnitude word of the integer part. With an exponent field of `e` the last of the 52 digits
stands for `2 ^ (e - 1075)`, so the last `1075 - e` bits of the word are cleared. Numbers below one
have no other. -/
def integralWord (x : Binary64) : Nat :=
  if x.exponentField < 1023 then 0
  else x.magnitude - x.magnitude % (1 <<< (1075 - x.exponentField))

/-- The number without its digits after the point. -/
def integral (x : Binary64) : Binary64 :=
  ofMagnitude x.isNegative x.integralWord

/-- The exact value of a finite number without its digits after the point, as an integer. -/
def toInteger (x : Binary64) : Int :=
  x.signedQuanta.tdiv unit

end FrameCode.Binary64
