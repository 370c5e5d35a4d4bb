import FrameCode.Text
import FrameCode.Binary64.Arithmetic
import FrameCode.Binary64.Hexadecimal

/-!
# Values

A value is an integer word, a double-precision number, a truth value, a text or nil. A variable
holds a **cell**: a value, or nothing yet. An unset cell is no value, and in particular not nil.

A value has two texts. `Value.text` is what a program writes, where nil is the empty text;
`Value.typed` is the notation `type@text` of operands and dumps.
-/

namespace FrameCode

/-- The names of the types of values. -/
inductive ValueType where
  | int
  | float
  | bool
  | string
  | nil
deriving DecidableEq, Inhabited

namespace ValueType

def text : ValueType → String
  | int => "int"
  | float => "float"
  | bool => "bool"
  | string => "string"
  | nil => "nil"

def all : List ValueType := [int, float, bool, string, nil]

/-- The type with a name, in exactly this spelling. -/
def ofText? (s : String) : Option ValueType :=
  all.find? (·.text == s)

end ValueType

/-- What variables and the data stack hold. -/
inductive Value where
  | int (n : Int64)
  | float (x : Binary64)
  | bool (b : Bool)
  | string (s : String)
  | nil
deriving DecidableEq, Inhabited

namespace Value

def type : Value → ValueType
  | int _ => .int
  | float _ => .float
  | bool _ => .bool
  | string _ => .string
  | nil => .nil

def sameType (a b : Value) : Bool :=
  a.type == b.type

/-- The text that a program writes for a value. -/
def text : Value → String
  | int n => Text.decimal n.toInt
  | float x => x.toHex
  | bool true => "true"
  | bool false => "false"
  | string s => s
  | nil => ""

/-- The notation `type@text`; nil is `nil@nil`. -/
def typed : Value → String
  | nil => "nil@nil"
  | v => v.type.text ++ "@" ++ v.text

/-- Equality of values of one type. Floating-point numbers are compared as numbers, so a NaN is not
equal to itself and the two zeros are equal. Values of different types are never equal. -/
def equal : Value → Value → Bool
  | int m, int n => m == n
  | float x, float y => x.equal y
  | bool a, bool b => a == b
  | string s, string t => s == t
  | nil, nil => true
  | _, _ => false

end Value

/-- The content of a variable. -/
inductive Cell where
  /-- declared and never assigned -/
  | unset
  | holding (v : Value)
deriving DecidableEq, Inhabited

namespace Cell

def value? : Cell → Option Value
  | unset => none
  | holding v => some v

/-- The name of the type of the value held, and the empty text for an unset cell. -/
def typeText : Cell → String
  | unset => ""
  | holding v => v.type.text

def text : Cell → String
  | unset => "<uninitialized>"
  | holding v => v.typed

end Cell

end FrameCode
