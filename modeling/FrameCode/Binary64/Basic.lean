/-!
# Binary64: double-precision numbers as words and as multiples of one quantum

A double-precision number is a 64-bit word: a sign bit, an 11-bit exponent field and a 52-bit
fraction. Everything the library does with such numbers is exact integer arithmetic on these words,
so every result is a definition one can compute with and reason about.

**Quanta.** Every finite double is a whole multiple of the least positive one, `2 ^ -1074`. The
number of these quanta (`quanta`) is a natural number, and on it sums, products, quotients and
comparisons are plain arithmetic. An exact result is a ratio `a / d` of natural numbers, counted in
quanta.

**Rounding** (`roundToWord`) takes such a ratio to the nearest word, a tie going to the even one. It
rests on one fact about the layout: in the binade whose unit is `2 ^ k` quanta, a significand `m`
has the magnitude word `k * 2 ^ 52 + m`, and a significand that rounds up to `2 ^ 53` carries into
the exponent by itself. Subnormal numbers share the unit of the first normal binade, so `k = 0`
covers them too.
-/

namespace FrameCode

/-- A double-precision number, given by its 64-bit word. -/
structure Binary64 where
  bits : UInt64
deriving DecidableEq, Inhabited

namespace Binary64

/-! ## The fields of a word -/

/-- The sign bit, `2 ^ 63`. -/
def signBit : Nat := 0x8000000000000000

/-- The number of words in one binade, `2 ^ 52`: the fraction lies below it, the exponent field
above. -/
def binade : Nat := 0x10000000000000

/-- Whether the sign bit, which marks a negative number, is set. -/
def isNegative (x : Binary64) : Bool :=
  decide (signBit ≤ x.bits.toNat)

/-- The word without its sign. -/
def magnitude (x : Binary64) : Nat :=
  x.bits.toNat % signBit

/-- The biased exponent, from `0` to `2047`. -/
def exponentField (x : Binary64) : Nat :=
  x.magnitude / binade

/-- The low 52 bits of the significand. -/
def fraction (x : Binary64) : Nat :=
  x.magnitude % binade

/-- The magnitude word of an infinity; larger magnitudes are NaNs, smaller ones finite. -/
def infinityWord : Nat := 2047 * binade

/-- The number with a sign and a magnitude word below `2 ^ 63`. -/
def ofMagnitude (negative : Bool) (magnitude : Nat) : Binary64 :=
  ⟨UInt64.ofNat (if negative then signBit + magnitude else magnitude)⟩

/-- The infinity of a sign. -/
def infinity (negative : Bool) : Binary64 :=
  ofMagnitude negative infinityWord

/-- The zero of a sign. -/
def zero (negative : Bool) : Binary64 :=
  ofMagnitude negative 0

/-- The quiet NaN that operations without a numeric result give. -/
def nan : Binary64 :=
  ofMagnitude false (infinityWord + binade / 2)

def isNaN (x : Binary64) : Bool :=
  decide (infinityWord < x.magnitude)

def isInfinite (x : Binary64) : Bool :=
  decide (x.magnitude = infinityWord)

def isFinite (x : Binary64) : Bool :=
  decide (x.magnitude < infinityWord)

/-- Either of the two zeros. -/
def isZero (x : Binary64) : Bool :=
  decide (x.magnitude = 0)

/-! ## The exact value of a finite word -/

/-- The number one is this many quanta, `2 ^ 1074`. -/
def unit : Nat := 1 <<< 1074

/-- The size of a finite number, counted in quanta of `2 ^ -1074`. -/
def quanta (x : Binary64) : Nat :=
  if x.exponentField = 0 then x.fraction
  else (binade + x.fraction) <<< (x.exponentField - 1)

/-- The exact value of a finite number, counted in quanta. -/
def signedQuanta (x : Binary64) : Int :=
  if x.isNegative then -(x.quanta : Int) else (x.quanta : Int)

/-! ## Rounding -/

/-- The integer nearest to `a / d`; of two equally near ones the even one. -/
def nearest (a d : Nat) : Nat :=
  let q := a / d
  let r := a % d
  if 2 * r < d then q
  else if d < 2 * r then q + 1
  else q + q % 2

/-- The exponent of the unit in the last place that a magnitude of `a / d` quanta keeps, counted
from the quantum: `0` below `2 ^ 53` quanta, and then one more for each binade. -/
def unitExponent (a d : Nat) : Nat :=
  (a / d).log2 - 52

/-- The magnitude word nearest to `a / d` quanta, ties to even; past the largest finite number, the
infinity. -/
def roundToWord (a d : Nat) : Nat :=
  let k := unitExponent a d
  min (k * binade + nearest a (d <<< k)) infinityWord

/-- The number nearest to `± a / d` quanta, ties to even. The sign also decides between the
zeros. -/
def round (negative : Bool) (a d : Nat) : Binary64 :=
  ofMagnitude negative (roundToWord a d)

end Binary64

end FrameCode
