import FrameCode.Document.Event
import FrameCode.Document.Node

/-!
# From markup to the document tree

A builder takes the markup of a document piece by piece and keeps the elements that are still open.
It resolves namespaces and entities on the way, and it joins texts that stand next to each other, so
that two texts are never neighbours in the tree.

**Entities.** An entity in text is replaced by its markup, which goes through the same builder; an
entity in an attribute value is replaced by its text. Entities may refer to entities, ten deep at
most (`maxDepth`), and the text of one entity may lead to no more than a fixed number of
replacements in all (`maxReferences`), so that reading always ends.

**Namespaces.** The declarations of an element come before those of the elements around it, and the
first declaration of a mark counts. A name without a mark belongs to the default namespace if it is
an element's, and to none if it is an attribute's.
-/

namespace FrameCode.Document

/-- Marks of namespaces with the namespaces they stand for; the default namespace has no mark. -/
abbrev Scope := List (Option String × String)

/-- An element whose end tag has not been met. The nodes in it are listed with the last one
first. -/
structure OpenElement where
  written : QualifiedName
  name : ExpandedName
  attributes : List Attribute
  scope : Scope
  content : List Node
deriving Inhabited

/-- A document tree under construction. -/
structure Builder where
  /-- the elements that are open, the innermost first -/
  stack : List OpenElement
  /-- the nodes outside of all elements, the last one first -/
  top : List Node
  /-- whether the last node is a text that may go on -/
  inText : Bool
  /-- the namespaces declared by the tag at work -/
  declared : Scope
  /-- the attributes of the tag at work, in order -/
  attributes : List (QualifiedName × String)
  /-- whether a start tag has been met in the text at work -/
  started : Bool
  /-- the entities with their written texts -/
  entities : List (String × List Char)
  /-- how many entities were replaced within the outermost one -/
  references : Nat
deriving Inhabited

/-- How deep entities may refer to entities. -/
def maxDepth : Nat := 10

/-- How many entities may be replaced within another one. -/
def maxReferences : Nat := 255

/-! ## Names that the standard reserves -/

/-- The mark with which namespaces are declared. -/
def declarationMark : String := "xmlns"

/-- The mark that is bound from the start. -/
def reservedMark : String := "xml"

/-- What the reserved namespaces have in common. -/
def reservedRoot : String := "http:" ++ "//www.w3.org/"

/-- The namespace of the mark that is bound from the start. -/
def reservedSpace : String := reservedRoot ++ "XML/1998/namespace"

/-- The namespace of declarations, which cannot be declared. -/
def declarationSpace : String := reservedRoot ++ "2000/xmlns/"

namespace Builder

/-- The builder before the first piece of markup. -/
def empty : Builder := ⟨[], [], false, [], [], false, [], 0⟩

/-! ## Adding nodes -/

/-- The nodes next to which a new one goes, the last one first. -/
def siblings (b : Builder) : List Node :=
  match b.stack with
  | e :: _ => e.content
  | [] => b.top

/-- The builder with other nodes at the place where new ones go. -/
def withSiblings (b : Builder) (nodes : List Node) : Builder :=
  match b.stack with
  | e :: outer => { b with stack := { e with content := nodes } :: outer }
  | [] => { b with top := nodes }

/-- One more node, which ends a text. -/
def addNode (b : Builder) (n : Node) : Builder :=
  { b.withSiblings (n :: b.siblings) with inText := false }

/-- More text: it goes on with the text that stands last, or starts a new one. -/
def addText (b : Builder) (s : List Char) : Builder :=
  let nodes :=
    match b.inText, b.siblings with
    | true, .text before :: rest => .text (before ++ String.ofList s) :: rest
    | _, others => .text (String.ofList s) :: others
  { b.withSiblings nodes with inText := true }

/-! ## Attribute values -/

/-- The number of replacements after one more, if it is allowed. Only those within an entity are
counted. -/
def countReference (nested : Bool) (references : Nat) : Option Nat :=
  if !nested then some references
  else if references = maxReferences then none
  else some (references + 1)

/-- One piece of an attribute value added to the text before it, which is given with the last
character first. Within an entity no reference may name the less-than sign, which could pass there
for the start of a tag; outside of entities it may. `replace` gives the text of an entity. -/
def addPiece (entities : List (String × List Char)) (nested : Bool)
    (replace : List Char → Nat → Option (List Char × Nat)) :
    List Char × Nat → Piece → Option (List Char × Nat)
  | (reversed, references), .plain c => some (c :: reversed, references)
  | (reversed, references), .named c =>
    if nested && c == '<' then none else some (c :: reversed, references)
  | (reversed, references), .entity name => do
    let written ← entities.lookup name
    let counted ← countReference nested references
    let (text, after) ← replace written counted
    return (text.reverse ++ reversed, if nested then after else 0)

/-- The text of an attribute value, `depth` telling how deep entities may still go, and the number
of replacements after it. -/
def attributeText (entities : List (String × List Char)) :
    (depth : Nat) → (nested : Bool) → List Char → Nat → Option (List Char × Nat)
  | 0, nested, written, references => do
    let ps ← pieces? written
    let (reversed, after) ← (attributeSpaces nested ps).foldlM
      (addPiece entities nested fun _ _ => none) ([], references)
    return (reversed.reverse, after)
  | depth + 1, nested, written, references => do
    let ps ← pieces? written
    let (reversed, after) ← (attributeSpaces nested ps).foldlM
      (addPiece entities nested (attributeText entities depth true)) ([], references)
    return (reversed.reverse, after)

/-! ## Attributes and namespaces -/

/-- The builder with a namespace declared by the tag at work. A mark is declared once by a tag, and
the reserved namespace only for its own mark, for which the declaration is void. -/
def declareMark (b : Builder) (mark space : String) : Option Builder :=
  if space = declarationSpace then none
  else if (mark = reservedMark) ≠ (space = reservedSpace) then none
  else if b.declared.any (·.1 == some mark) then none
  else if space = reservedSpace then some b
  else some { b with declared := b.declared ++ [(some mark, space)] }

/-- The builder with a default namespace declared by the tag at work. -/
def declareDefault (b : Builder) (space : String) : Option Builder :=
  if space = reservedSpace ∨ space = declarationSpace then none
  else some { b with declared := b.declared ++ [(none, space)] }

/-- The builder with one more attribute of the tag at work, which may declare a namespace. -/
def addAttribute (depth : Nat) (nested : Bool) (b : Builder) (a : QualifiedName × List Char) :
    Option Builder := do
  let (text, references) ← attributeText b.entities depth nested a.2 b.references
  let value := String.ofList text
  let b := { b with references := references }
  if a.1.qualifier = declarationMark then b.declareMark a.1.localName value
  else if a.1.localName = declarationMark then b.declareDefault value
  else return { b with attributes := b.attributes ++ [(a.1, value)] }

/-- The namespaces known in an element at work: those it declares, then those of the elements around
it. -/
def scope (b : Builder) : Scope :=
  b.declared ++ (b.stack.head?.map (·.scope)).getD []

/-- The namespace that a mark stands for. The empty mark may stand for none. -/
def spaceOf? (scope : Scope) (mark : String) : Option (Option String) :=
  if mark.isEmpty then some (scope.lookup none)
  else (scope.lookup (some mark)).map some

/-- The namespace of an attribute with a mark. -/
def attributeSpace? (scope : Scope) (mark : String) : Option (Option String) :=
  if mark = reservedMark then some (some reservedSpace)
  else if mark.isEmpty then some none
  else spaceOf? scope mark

/-- The attributes of an element after one more of them; no two may have the same expanded name. -/
def resolveAttribute (scope : Scope) (before : List Attribute) (a : QualifiedName × String) :
    Option (List Attribute) := do
  let space ← attributeSpace? scope a.1.qualifier
  let name : ExpandedName := ⟨space, a.1.localName⟩
  if before.any (·.name == name) then none else some (before ++ [⟨name, a.2⟩])

/-- The attributes of the tag at work with their names expanded. -/
def resolvedAttributes (b : Builder) : Option (List Attribute) :=
  b.attributes.foldlM (resolveAttribute b.scope) []

/-- The builder after the tag at work. -/
def tagDone (b : Builder) : Builder :=
  { b with declared := [], attributes := [], inText := false }

/-! ## Tags -/

/-- The element of the tag at work, open and without content. -/
def elementOf (b : Builder) (name : QualifiedName) : Option OpenElement := do
  let attributes ← b.resolvedAttributes
  let space ← spaceOf? b.scope name.qualifier
  return ⟨name, ⟨space, name.localName⟩, attributes, b.scope, []⟩

/-- The node of an element that is complete. -/
def nodeOf (e : OpenElement) : Node :=
  .element e.name e.attributes e.content.reverse

/-- A start tag. One that is cut off leaves its attributes to the next tag. -/
def startTag (depth : Nat) (nested : Bool) (b : Builder) (name : QualifiedName)
    (attributes : List (QualifiedName × List Char)) (ending : TagEnd) : Option Builder := do
  if name.qualifier = declarationMark then none
  else
    let b ← attributes.foldlM (addAttribute depth nested)
      { b with inText := false, started := true }
    match ending with
    | .cut => return b
    | .empty =>
      let e ← b.elementOf name
      return b.tagDone.addNode (nodeOf e)
    | .opening =>
      let e ← b.elementOf name
      return { b.tagDone with stack := e :: b.stack }

/-- An end tag, which has to name the innermost open element as its start tag does. -/
def endTag (b : Builder) (name : QualifiedName) : Option Builder := do
  if !b.started then none
  else
    let _ ← b.resolvedAttributes
    match b.stack with
    | [] => none
    | e :: outer =>
      if e.written = name then return { b.tagDone with stack := outer }.addNode (nodeOf e)
      else none

/-! ## All markup -/

/-- The builder after one chunk of text. `build` takes the markup of an entity. -/
def addChunk (nested : Bool) (build : List Event → Builder → Option Builder) (b : Builder) :
    Chunk → Option Builder
  | .text s => some (b.addText s)
  | .entity name => do
    let written ← b.entities.lookup name
    let counted ← countReference nested b.references
    let events ← Event.ofContent? written
    let after ← build events { b with references := counted, started := false }
    return { after with started := b.started, references := if nested then after.references else 0 }

/-- The builder after one piece of markup. -/
def addEvent (depth : Nat) (build : List Event → Builder → Option Builder) (b : Builder) :
    Event → Option Builder
  | .tag name attributes ending => b.startTag depth (depth != maxDepth) name attributes ending
  | .close name => b.endTag name
  | .text written => do
    let ps ← pieces? written
    (chunks (depth != maxDepth) [] false ps).foldlM (addChunk (depth != maxDepth) build) b
  | .verbatim s => some (b.addText (unifyLines [] s))
  | .comment s => some (b.addNode (.comment (String.ofList s)))
  | .instruction target => some (b.addNode (.instruction (String.ofList target)))
  | .entity name written => some { b with entities := b.entities ++ [(name, written)] }

/-- The builder after a sequence of markup, `depth` telling how deep entities may still go. -/
def addEvents : (depth : Nat) → List Event → Builder → Option Builder
  | 0, events, b => events.foldlM (addEvent 0 fun _ _ => none) b
  | depth + 1, events, b => events.foldlM (addEvent (depth + 1) (addEvents depth)) b

end Builder

/-- The outermost element of a document; `none` if the document is not well-formed. -/
def Element.ofText? (s : String) : Option Element := do
  let events ← Event.ofDocument? s.toList
  let b ← Builder.addEvents maxDepth events .empty
  if b.stack.isEmpty then b.top.reverse.findSome? Node.element? else none

end FrameCode.Document
