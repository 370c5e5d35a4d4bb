/-!
# Character classes of XML documents

The classes that the grammar of XML 1.0 (fifth edition) is written in: characters that a document
may hold at all, blanks of the markup, and characters of names. Blanks of the markup are four
characters only and not the larger class that literals are trimmed of.
-/

namespace FrameCode.Document

/-- The characters that a document may hold: no control characters other than tab, line feed and
carriage return, and not the two last code points of the basic plane. -/
def isChar (c : Char) : Bool :=
  let n := c.toNat
  if n < 0x20 then n == 0x09 || n == 0x0A || n == 0x0D else n != 0xFFFE && n != 0xFFFF

/-- Blanks of the markup. -/
def isSpace (c : Char) : Bool :=
  c == ' ' || c == '\t' || c == '\n' || c == '\r'

/-- Whether a code point lies in one of the given ranges, ends included. -/
def inRanges (ranges : List (Nat × Nat)) (n : Nat) : Bool :=
  ranges.any fun (low, high) => low ≤ n && n ≤ high

/-- The ranges of code points with which a name may start. -/
def nameStartRanges : List (Nat × Nat) :=
  [(0x41, 0x5A), (0x61, 0x7A), (0x3A, 0x3A), (0x5F, 0x5F), (0xC0, 0xD6), (0xD8, 0xF6),
   (0xF8, 0x2FF), (0x370, 0x37D), (0x37F, 0x1FFF), (0x200C, 0x200D), (0x2070, 0x218F),
   (0x2C00, 0x2FEF), (0x3001, 0xD7FF), (0xF900, 0xFDCF), (0xFDF0, 0xFFFD), (0x10000, 0xEFFFF)]

/-- The ranges of code points that a name may hold after its start only. -/
def nameOnlyRanges : List (Nat × Nat) :=
  [(0x30, 0x39), (0x2D, 0x2E), (0xB7, 0xB7), (0x300, 0x36F), (0x203F, 0x2040)]

/-- Characters with which a name may start. -/
def isNameStart (c : Char) : Bool :=
  inRanges nameStartRanges c.toNat

/-- Characters that a name may hold. -/
def isNameChar (c : Char) : Bool :=
  isNameStart c || inRanges nameOnlyRanges c.toNat

end FrameCode.Document
