/-!
# Document trees

A document is a tree of nodes: elements with attributes and content, texts, comments and processing
instructions. Names are expanded, which means that a name is a local name together with the
namespace it belongs to, if any.

The text that belongs to an element is the text node it begins with. What follows another node, be
it only a comment, does not count.
-/

namespace FrameCode.Document

/-- A local name in a namespace, or in none. -/
structure ExpandedName where
  space : Option String
  localName : String
deriving DecidableEq, Inhabited

structure Attribute where
  name : ExpandedName
  value : String
deriving DecidableEq, Inhabited

/-- A node of a document. -/
inductive Node where
  | element (name : ExpandedName) (attributes : List Attribute) (content : List Node)
  | text (s : String)
  | comment (s : String)
  /-- a processing instruction -/
  | instruction (target : String)
deriving Inhabited

/-! ## Equality of trees -/

mutual

/-- Whether two nodes are the same. -/
def Node.same : Node → Node → Bool
  | .element name attributes content, .element name' attributes' content' =>
    decide (name = name') && decide (attributes = attributes') && sameAll content content'
  | .text s, .text s' => decide (s = s')
  | .comment s, .comment s' => decide (s = s')
  | .instruction target, .instruction target' => decide (target = target')
  | _, _ => false

/-- Whether two lists hold the same nodes. -/
def Node.sameAll : List Node → List Node → Bool
  | [], [] => true
  | n :: ns, n' :: ns' => n.same n' && sameAll ns ns'
  | _, _ => false

end

mutual

theorem Node.same_iff (n n' : Node) : n.same n' = true ↔ n = n' := by
  cases n with
  | element name attributes content =>
    cases n' <;> simp [same, sameAll_iff content, and_assoc]
  | text s => cases n' <;> simp [same]
  | comment s => cases n' <;> simp [same]
  | instruction target => cases n' <;> simp [same]

theorem Node.sameAll_iff (ns ns' : List Node) : sameAll ns ns' = true ↔ ns = ns' := by
  cases ns with
  | nil => cases ns' <;> simp [sameAll]
  | cons n ns => cases ns' <;> simp [sameAll, same_iff n, sameAll_iff ns]

end

instance : DecidableEq Node := fun n n' => decidable_of_iff _ (Node.same_iff n n')

/-! ## Elements -/

/-- An element: its name, its attributes and the nodes in it. -/
structure Element where
  name : ExpandedName
  attributes : List Attribute
  content : List Node
deriving DecidableEq, Inhabited

/-- The element that a node is, if it is one. -/
def Node.element? : Node → Option Element
  | element name attributes content => some ⟨name, attributes, content⟩
  | _ => none

namespace Element

/-- The local name of an element. -/
def tag (e : Element) : String :=
  e.name.localName

/-- The value of the attribute with a local name and no namespace. -/
def attribute? (e : Element) (name : String) : Option String :=
  (e.attributes.find? fun a => a.name == ⟨none, name⟩).map (·.value)

/-- The elements directly in an element, in document order. -/
def children (e : Element) : List Element :=
  e.content.filterMap Node.element?

/-- The text with which the content of an element begins; empty if it begins with another node or is
empty. -/
def leadingText (e : Element) : String :=
  match e.content with
  | .text s :: _ => s
  | _ => ""

end Element

end FrameCode.Document
