import FrameCode.Text

/-!
# Escapes in string literals

In a string literal a backslash and three decimal digits stand for the character with that code. A
backslash that three digits do not follow stands for itself, and decoded characters are never looked
at again.
-/

namespace FrameCode.Literal

open FrameCode.Text

/-- The value of a decimal digit. -/
def decimalDigit (c : Char) : Nat :=
  c.toNat - 0x30

/-- The character that three decimal digits name. -/
def escapedChar (a b c : Char) : Char :=
  Char.ofNat (decimalDigit a * 100 + decimalDigit b * 10 + decimalDigit c)

/-- The text that a string literal denotes. -/
def unescape : List Char → List Char
  | '\\' :: a :: b :: c :: rest =>
    if isDigit a && isDigit b && isDigit c then escapedChar a b c :: unescape rest
    else '\\' :: unescape (a :: b :: c :: rest)
  | x :: rest => x :: unescape rest
  | [] => []

end FrameCode.Literal
