import FrameCode.Text
import FrameCode.Document.Character

/-!
# References and line ends

Text and attribute values are written with references in them: `&#65;` and `&#x41;` name a character
by its code, and `&name;` stands for a predefined character or for an entity. `pieces?` splits what
is written into plain characters, characters named by references and entities; a bare ampersand
makes it fail.

Line ends in what is written are unified. In text a carriage return, alone or before a line feed,
becomes one line feed; in attribute values every tab and line end becomes a space. Characters named
by references are left alone, unless the reference itself stands in the text of an entity.
-/

namespace FrameCode.Document

open FrameCode.Text

/-! ## References -/

/-- A part of a written text. -/
inductive Piece where
  /-- a character written as it is -/
  | plain (c : Char)
  /-- a character named by a reference -/
  | named (c : Char)
  /-- an entity to be replaced by its text -/
  | entity (name : String)
deriving DecidableEq, Inhabited

/-- The character with a code given by digits. A code that fits 32 bits but belongs to no character
gives the replacement character. -/
def charOfDigits? (base : Nat) (cs : List Char) : Option Char := do
  let ds ← digits? base cs
  let n := valueOf base ds
  if ds.isEmpty || UInt32.size ≤ n then none
  else
    let c := if n.isValidChar then Char.ofNat n else '\ufffd'
    if isChar c then some c else none

/-- Whether a text is a name. -/
def isName : List Char → Bool
  | [] => false
  | c :: cs => isNameStart c && cs.all isNameChar

/-- The names that always stand for a character. -/
def predefined? : String → Option Char
  | "quot" => some '"'
  | "amp" => some '&'
  | "apos" => some '\''
  | "lt" => some '<'
  | "gt" => some '>'
  | _ => none

/-- What the text between an ampersand and a semicolon refers to. -/
def reference? : List Char → Option Piece
  | '#' :: 'x' :: digits => (charOfDigits? 16 digits).map .named
  | '#' :: digits => (charOfDigits? 10 digits).map .named
  | cs =>
    if isName cs then
      let name := String.ofList cs
      match predefined? name with
      | some c => some (.named c)
      | none => some (.entity name)
    else none

/-- The pieces of a written text. The first argument holds the characters of an open reference, the
last one first. -/
def piecesFrom? : Option (List Char) → List Char → Option (List Piece)
  | none, [] => some []
  | some _, [] => none
  | none, '&' :: cs => piecesFrom? (some []) cs
  | none, c :: cs => (piecesFrom? none cs).map (.plain c :: ·)
  | some reversed, ';' :: cs => do
    let p ← reference? reversed.reverse
    let ps ← piecesFrom? none cs
    return p :: ps
  | some reversed, c :: cs => piecesFrom? (some (c :: reversed)) cs

/-- The pieces of a written text; `none` if it holds an ampersand that starts no reference. -/
def pieces? (cs : List Char) : Option (List Piece) :=
  piecesFrom? none cs

/-! ## Line ends in text -/

/-- A text under construction, the last character first, with one more character. A carriage return
is kept until the next character shows whether a line feed follows; at the end of the text it is a
line feed itself. -/
def pushText (reversed : List Char) (c : Char) (atEnd : Bool) : List Char :=
  match reversed with
  | '\r' :: before =>
    if atEnd && c == '\r' then '\n' :: '\n' :: before
    else if c != '\n' then c :: '\n' :: before
    else '\n' :: before
  | _ => if atEnd && c == '\r' then '\n' :: reversed else c :: reversed

/-- A text with its line ends unified. -/
def unifyLines (reversed : List Char) : List Char → List Char
  | [] => reversed.reverse
  | c :: cs => unifyLines (pushText reversed c cs.isEmpty) cs

/-- A stretch of text, or an entity between two stretches. -/
inductive Chunk where
  | text (s : List Char)
  | entity (name : String)
deriving DecidableEq, Inhabited

/-- The text read so far as a chunk, if it is not empty. -/
def chunkOf (reversed : List Char) : List Chunk :=
  if reversed.isEmpty then [] else [.text reversed.reverse]

/-- The chunks of a written text. `nested` tells that it is the text of an entity, in which named
characters count as written ones; outside of entities they are taken as they are, and so is the
character right after one (`verbatim`). -/
def chunks (nested : Bool) : (reversed : List Char) → (verbatim : Bool) → List Piece → List Chunk
  | reversed, _, [] => chunkOf reversed
  | reversed, true, .plain c :: ps => chunks nested (c :: reversed) false ps
  | reversed, false, .plain c :: ps => chunks nested (pushText reversed c ps.isEmpty) false ps
  | reversed, verbatim, .named c :: ps =>
    if nested then chunks nested (pushText reversed c ps.isEmpty) verbatim ps
    else chunks nested (c :: reversed) true ps
  | reversed, _, .entity name :: ps => chunkOf reversed ++ .entity name :: chunks nested [] false ps

/-! ## Line ends in attribute values -/

/-- A tab or a part of a line end becomes a space. -/
def blankToSpace (c : Char) : Char :=
  if c == '\n' || c == '\r' || c == '\t' then ' ' else c

/-- The pieces of an attribute value with tabs and line ends turned into spaces, a carriage return
and a line feed into one. `nested` tells that the value comes from an entity. -/
def attributeSpaces (nested : Bool) : List Piece → List Piece
  | [] => []
  | .plain '\r' :: .plain '\n' :: ps => .plain ' ' :: attributeSpaces nested ps
  | .plain c :: ps => .plain (blankToSpace c) :: attributeSpaces nested ps
  | .named c :: ps => .named (if nested then blankToSpace c else c) :: attributeSpaces nested ps
  | .entity name :: ps => .entity name :: attributeSpaces nested ps

end FrameCode.Document
