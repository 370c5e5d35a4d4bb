import FrameCode.Document.Reference

/-!
# Events: the markup of a document in sequence

Reading a document starts with its markup: tags, texts, comments, processing instructions and
declarations of entities, in the order in which they are written. `ofDocument?` reads a whole
document and `ofContent?` the text of an entity, which is written like the content of an element.

Whether tags are nested properly is not decided here, because an entity may open or close an
element. Reading only keeps count of the tags, so that it knows where the outermost element ends.

Every function reads from the front of a list of characters and leaves the rest. The loops are given
a number of rounds, their fuel; each round but the last takes a character away, so one more than the
number of characters is always enough.
-/

namespace FrameCode.Document

/-- A name as it is written: a local name with the mark of its namespace before a colon, which may
be empty. -/
structure QualifiedName where
  qualifier : String
  localName : String
deriving DecidableEq, Inhabited

/-- How a start tag ends: it opens an element, is an element without content, or is cut off where
the text ends. -/
inductive TagEnd where
  | opening
  | empty
  | cut
deriving DecidableEq, Inhabited

/-- One piece of markup. -/
inductive Event where
  | tag (name : QualifiedName) (attributes : List (QualifiedName × List Char)) (ending : TagEnd)
  | close (name : QualifiedName)
  /-- written text, with references in it -/
  | text (written : List Char)
  /-- text without references -/
  | verbatim (s : List Char)
  | comment (s : List Char)
  /-- a processing instruction -/
  | instruction (target : List Char)
  /-- the declaration of an entity -/
  | entity (name : String) (written : List Char)
deriving DecidableEq, Inhabited

namespace Event

/-- A reader takes characters from the front of a text, or fails. -/
abbrev Reader := StateT (List Char) Option

/-! ## Small readers -/

/-- Whether the text goes on with the given characters. -/
def ahead (s : String) : Reader Bool := do
  return s.toList.isPrefixOf (← get)

/-- The given characters. -/
def exactly (s : String) : Reader Unit := do
  let cs ← get
  if s.toList.isPrefixOf cs then set (cs.drop s.toList.length) else failure

/-- All characters up to the first one that fails a test. -/
def run (p : Char → Bool) : Reader (List Char) := do
  let cs ← get
  set (cs.dropWhile p)
  return cs.takeWhile p

def skipSpaces : Reader Unit := do
  let _ ← run isSpace

/-- At least one blank. -/
def spaces : Reader Unit := do
  if (← run isSpace).isEmpty then failure

/-- Characters up to the first one that fails a test, all of which have to be characters of
documents. -/
def charRun (p : Char → Bool) : Reader (List Char) := do
  let s ← run p
  if s.all isChar then return s else failure

/-- The text before a mark and the text after it. -/
def splitAtMark (mark : List Char) : List Char → Option (List Char × List Char)
  | [] => none
  | c :: cs =>
    if mark.isPrefixOf (c :: cs) then some ([], (c :: cs).drop mark.length)
    else if isChar c then (splitAtMark mark cs).map fun (before, after) => (c :: before, after)
    else none

/-- Characters of documents up to a mark, which is read as well. -/
def upTo (mark : String) : Reader (List Char) := do
  match splitAtMark mark.toList (← get) with
  | some (before, after) => do
    set after
    return before
  | none => failure

/-- A name. -/
def name : Reader (List Char) := do
  let s ← run isNameChar
  if isName s then return s else failure

/-- A name with at most one colon. The part after it is not empty, and both parts start as
names do. -/
def qualifiedName : Reader QualifiedName := do
  let s ← run isNameChar
  let (qualifier, localName) := match Text.cutAt (· == ':') s with
    | (q, some l) => (q, l)
    | (l, none) => ([], l)
  if localName.contains ':' then failure
  else if qualifier.head?.all isNameStart && localName.head?.any isNameStart then
    return ⟨String.ofList qualifier, String.ofList localName⟩
  else failure

/-- A quotation mark of either kind. -/
def quote : Reader Char := do
  match ← get with
  | '"' :: cs => do
    set cs
    return '"'
  | '\'' :: cs => do
    set cs
    return '\''
  | _ => failure

/-- Characters between quotation marks, of any kind. -/
def quotedAny : Reader (List Char) := do
  let q ← quote
  let s ← run (· != q)
  exactly (String.ofList [q])
  return s

/-- A name, an equals sign and a value in quotation marks, in which there is no less-than sign. -/
def attributeEvent : Reader (QualifiedName × List Char) := do
  let n ← qualifiedName
  skipSpaces
  exactly "="
  skipSpaces
  let q ← quote
  let value ← charRun fun c => c != q && c != '<'
  exactly (String.ofList [q])
  return (n, value)

/-! ## Comments and processing instructions -/

/-- Whether two hyphens stand next to each other, or one stands at the end. -/
def hasHyphens : List Char → Bool
  | [] => false
  | ['-'] => true
  | '-' :: '-' :: _ => true
  | _ :: cs => hasHyphens cs

/-- A comment. -/
def commentEvent : Reader Event := do
  exactly "<!--"
  let s ← upTo "-->"
  if hasHyphens s then failure else return .comment s

/-- A processing instruction, which does not look like the declaration of the document. -/
def instructionEvent : Reader Event := do
  if ← ahead "<?xml " then failure
  exactly "<?"
  let target ← name
  skipSpaces
  let _ ← upTo "?>"
  return .instruction target

/-- Comments, processing instructions and blanks. -/
def misc : Nat → Reader (List Event)
  | 0 => failure
  | fuel + 1 => do
    skipSpaces
    if ← ahead "<!--" then
      let e ← commentEvent
      return e :: (← misc fuel)
    else if ← ahead "<?" then
      let e ← instructionEvent
      return e :: (← misc fuel)
    else return []

/-! ## Tags and content -/

/-- The attributes of a start tag and the way it ends. Blanks stand before each attribute. -/
def tagRest : Nat → Reader (List (QualifiedName × List Char) × TagEnd)
  | 0 => failure
  | fuel + 1 => do
    let cs ← get
    if cs.isEmpty then return ([], .cut)
    skipSpaces
    if ← ahead "/" then
      exactly "/>"
      return ([], .empty)
    else if ← ahead ">" then
      exactly ">"
      return ([], .opening)
    else if cs.head?.any isSpace then
      let a ← attributeEvent
      let (rest, ending) ← tagRest fuel
      return (a :: rest, ending)
    else failure

/-- A start tag. -/
def tagEvent (fuel : Nat) : Reader (QualifiedName × List (QualifiedName × List Char) × TagEnd) := do
  exactly "<"
  let n ← qualifiedName
  let (attributes, ending) ← tagRest fuel
  return (n, attributes, ending)

/-- An end tag. -/
def closeEvent : Reader Event := do
  exactly "</"
  let n ← qualifiedName
  skipSpaces
  exactly ">"
  return .close n

/-- Whether a text holds the mark that ends text without references. -/
def hasVerbatimEnd : List Char → Bool
  | [] => false
  | c :: cs => [']', ']', '>'].isPrefixOf (c :: cs) || hasVerbatimEnd cs

/-- A stretch of text. -/
def textEvent : Reader Event := do
  let s ← charRun (· != '<')
  if hasVerbatimEnd s then failure else return .text s

/-- A stretch of text without references. -/
def verbatimEvent : Reader Event := do
  exactly "<![CDATA["
  return .verbatim (← upTo "]]>")

/-- Content up to the end tag that closes it, or up to the end of the text. `depth` counts the tags
that are open within the content. -/
def content : (fuel depth : Nat) → Reader (List Event)
  | 0, _ => failure
  | fuel + 1, depth => do
    if (← get).isEmpty then return []
    else if ← ahead "</" then
      let e ← closeEvent
      match depth with
      | 0 => return [e]
      | outer + 1 => return e :: (← content fuel outer)
    else if ← ahead "<!--" then
      let e ← commentEvent
      return e :: (← content fuel depth)
    else if ← ahead "<![CDATA[" then
      let e ← verbatimEvent
      return e :: (← content fuel depth)
    else if ← ahead "<?" then
      let e ← instructionEvent
      return e :: (← content fuel depth)
    else if ← ahead "<" then
      let (n, attributes, ending) ← tagEvent (fuel + 1)
      let inner := if ending = .opening then depth + 1 else depth
      return .tag n attributes ending :: (← content fuel inner)
    else
      let e ← textEvent
      return e :: (← content fuel depth)

/-- The markup in the text of an entity. What follows an end tag without a start tag is not looked
at. -/
def ofContent? (cs : List Char) : Option (List Event) :=
  (content (cs.length + 1) 0 cs).map (·.1)

/-! ## The prologue -/

/-- Blanks, unless the declaration ends here. -/
def declarationSpaces : Reader Unit := do
  if (← get).isEmpty || (← ahead "?>") then return
  spaces

/-- The declaration of the document: version, encoding and standalone, in this order; only the
version has to be there. The values are not looked at. -/
def declaration : Reader Unit := do
  exactly "<?xml"
  declarationSpaces
  if !(← ahead "version") then failure
  let _ ← attributeEvent
  declarationSpaces
  if ← ahead "encoding" then
    let _ ← attributeEvent
    declarationSpaces
  if ← ahead "standalone" then
    let _ ← attributeEvent
  skipSpaces
  exactly "?>"

/-- The address of an external part, which is read and forgotten. The result tells whether there was
one. -/
def externalId : Reader Bool := do
  if ← ahead "SYSTEM" then
    exactly "SYSTEM"
    spaces
    let _ ← quotedAny
    return true
  else if ← ahead "PUBLIC" then
    exactly "PUBLIC"
    spaces
    let _ ← quotedAny
    spaces
    let _ ← quotedAny
    return true
  else return false

/-- The declaration of an entity. An external entity is not declared. -/
def entityDeclaration : Reader (List Event) := do
  exactly "<!ENTITY"
  spaces
  let parameter ← ahead "%"
  if parameter then
    exactly "%"
    spaces
  let n ← name
  spaces
  let declared ← do
    if (← ahead "\"") || (← ahead "'") then
      pure [Event.entity (String.ofList n) (← quotedAny)]
    else if ← externalId then
      if !parameter then
        skipSpaces
        if ← ahead "NDATA" then
          exactly "NDATA"
          spaces
          let _ ← name
      pure []
    else failure
  skipSpaces
  exactly ">"
  return declared

/-- A declaration that does not matter. -/
def otherDeclaration : Reader Unit := do
  let _ ← run (· != '>')
  exactly ">"

/-- The declarations between brackets, with the brackets' end. -/
def subset : Nat → Reader (List Event)
  | 0 => failure
  | fuel + 1 => do
    if (← get).isEmpty then return []
    skipSpaces
    if ← ahead "<!ENTITY" then
      let es ← entityDeclaration
      return es ++ (← subset fuel)
    else if ← ahead "<!--" then
      let e ← commentEvent
      return e :: (← subset fuel)
    else if ← ahead "<?" then
      let e ← instructionEvent
      return e :: (← subset fuel)
    else if ← ahead "]" then
      exactly "]"
      skipSpaces
      exactly ">"
      return []
    else if (← ahead "<!ELEMENT") || (← ahead "<!ATTLIST") || (← ahead "<!NOTATION") then
      otherDeclaration
      subset fuel
    else failure

/-- The declaration of the document type. -/
def documentType : Reader (List Event) := do
  exactly "<!DOCTYPE"
  spaces
  if !(← get).isEmpty then
    let _ ← name
  skipSpaces
  let _ ← externalId
  skipSpaces
  if ← ahead ">" then
    exactly ">"
    return []
  else
    exactly "["
    subset ((← get).length + 1)

/-! ## Whole documents -/

/-- The outermost element. -/
def outermost : Reader (List Event) := do
  let (n, attributes, ending) ← tagEvent ((← get).length + 1)
  let e := Event.tag n attributes ending
  if ending = .opening then return e :: (← content ((← get).length + 1) 0)
  else return [e]

/-- All markup of a document. -/
def document : Reader (List Event) := do
  if ← ahead "\ufeff" then exactly "\ufeff"
  if ← ahead "<?xml " then declaration
  let before ← misc ((← get).length + 1)
  let type ← do
    if ← ahead "<!DOCTYPE" then
      let declared ← documentType
      let after ← misc ((← get).length + 1)
      pure (declared ++ after)
    else pure []
  let element ← do
    if ← ahead "<" then outermost else pure []
  let after ← misc ((← get).length + 1)
  if (← get).isEmpty then return before ++ type ++ element ++ after else failure

/-- The markup of a document. -/
def ofDocument? (cs : List Char) : Option (List Event) :=
  (document cs).map (·.1)

end Event

end FrameCode.Document
