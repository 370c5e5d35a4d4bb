import FrameCode.Binary64.Decimal
import FrameCode.Binary64.Hexadecimal

/-!
# Floating-point literals

A floating-point literal is written in decimal notation, with underscores between digits if one
likes, or in hexadecimal notation. Decimal notation is tried first, so a text such as `10` that both
notations accept is ten.
-/

namespace FrameCode.Literal

open FrameCode.Text

/-- Whether every underscore of a text stands between two decimal digits; `previous` is the
character before the text, if any. -/
def underscoresSeparate : Option Char → List Char → Bool
  | _, [] => true
  | previous, c :: rest =>
    (c != '_' || (previous.any isDigit && rest.head?.any isDigit))
      && underscoresSeparate (some c) rest

/-- A decimal literal without blanks around it. -/
def decimalFloat? (cs : List Char) : Option Binary64 :=
  if underscoresSeparate none cs then Binary64.ofDecimal? (cs.filter (· != '_')) else none

/-- The value of a floating-point literal with blanks around it. -/
def float? (text : List Char) : Option Binary64 :=
  decimalFloat? (trim text) <|> Binary64.ofHex? (trim text)

end FrameCode.Literal
