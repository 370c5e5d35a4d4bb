import FrameCode.Proofs.Reordering

/-!
# Comments in documents

A comment may be put into the content of the program element, of an instruction element or of an
argument element, between two nodes or inside a text. What is read from the first two are the
elements in them, and a comment leaves these as they are. What is read from an argument is the text
that it begins with, and a comment inside that text ends it: the characters behind the comment are
lost. So a comment changes nothing where it stands behind the leading text of an argument, and
otherwise it changes nothing exactly if the characters in front of it denote the same operand
(`load_commented`). They need not do so (`load_comment_inside_text`).
-/

namespace FrameCode.Document

/-! ## Documents with a comment more -/

/-- The content of an element with a comment put in, between two nodes or inside a text. -/
inductive CommentPut : List Node → List Node → Prop
  | between (before after : List Node) (c : String) :
    CommentPut (before ++ after) (before ++ .comment c :: after)
  | inside (before after : List Node) (s t c : String) :
    CommentPut (before ++ .text (s ++ t) :: after)
      (before ++ .text s :: .comment c :: .text t :: after)

namespace Element

/-- The node that an element is. -/
def node (e : Element) : Node :=
  .element e.name e.attributes e.content

@[simp] theorem element?_node (e : Element) : e.node.element? = some e := rfl

/-- An element with a comment directly in its content. -/
structure Commented (e e' : Element) : Prop where
  name : e'.name = e.name
  attributes : e'.attributes = e.attributes
  content : CommentPut e.content e'.content

/-- An element with one of the elements directly in it exchanged for another one. -/
structure Exchanged (e e' c c' : Element) : Prop where
  name : e'.name = e.name
  attributes : e'.attributes = e.attributes
  content : ∃ before after,
    e.content = before ++ c.node :: after ∧ e'.content = before ++ c'.node :: after

variable {e e' c c' : Element}

theorem tag_congr (hname : e'.name = e.name) : e'.tag = e.tag := by
  unfold tag
  rw [hname]

theorem attribute?_congr (hattributes : e'.attributes = e.attributes) (name : String) :
    e'.attribute? name = e.attribute? name := by
  unfold attribute?
  rw [hattributes]

/-- A comment is no element, and neither is a text. -/
theorem Commented.children (h : Commented e e') : e'.children = e.children := by
  obtain ⟨-, -, hcontent⟩ := h
  unfold Element.children
  generalize e.content = ns at hcontent ⊢
  generalize e'.content = ns' at hcontent ⊢
  cases hcontent with
  | between before after c => simp [List.filterMap_cons, Node.element?]
  | inside before after s t c => simp [List.filterMap_cons, Node.element?]

/-- What is left of the leading text is the part in front of the comment, if that is not all. -/
theorem Commented.leadingText (h : Commented e e') :
    ∃ lost, e.leadingText = e'.leadingText ++ lost := by
  obtain ⟨-, -, hcontent⟩ := h
  unfold Element.leadingText
  generalize e.content = ns at hcontent ⊢
  generalize e'.content = ns' at hcontent ⊢
  cases hcontent with
  | between before after c =>
    cases before with
    | nil => exact ⟨_, String.empty_append.symm⟩
    | cons n before =>
      refine ⟨"", ?_⟩
      rw [String.append_empty]
      cases n <;> rfl
  | inside before after s t c =>
    cases before with
    | nil => exact ⟨t, rfl⟩
    | cons n before =>
      refine ⟨"", ?_⟩
      rw [String.append_empty]
      cases n <;> rfl

theorem Exchanged.children (h : Exchanged e e' c c') :
    ∃ before after, e.children = before ++ c :: after ∧ e'.children = before ++ c' :: after := by
  obtain ⟨-, -, before, after, he, he'⟩ := h
  refine ⟨before.filterMap Node.element?, after.filterMap Node.element?, ?_, ?_⟩
  · rw [Element.children, he]
    simp
  · rw [Element.children, he']
    simp

theorem Exchanged.mem_children (h : Exchanged e e' c c') :
    c ∈ e.children ∧ c' ∈ e'.children := by
  obtain ⟨before, after, he, he'⟩ := h.children
  rw [he, he']
  simp

end Element

end FrameCode.Document

namespace FrameCode.Source

open FrameCode.Checks FrameCode.Document FrameCode.Document.Element

variable {root root' i i' a a' : Element} {p : Program}

/-! ## What reading depends on -/

theorem required_congr (hname : a'.name = a.name) (hattributes : a'.attributes = a.attributes)
    (name : String) : required a' name = required a name := by
  unfold required
  rw [attribute?_congr hattributes, tag_congr hname]

/-- The operand of an element depends on its type and on its leading text. -/
theorem argument_congr (hname : a'.name = a.name) (hattributes : a'.attributes = a.attributes)
    (htext : a'.leadingText = a.leadingText) (order : Nat) :
    argument order a' = argument order a := by
  unfold argument
  rw [required_congr hname hattributes, htext]

theorem fill_congr (hname : a'.name = a.name) {order : Nat}
    (hargument : argument order a' = argument order a) (arity : Nat)
    (found : List (Option Operand)) : fill order arity found a' = fill order arity found a := by
  unfold fill
  rw [tag_congr hname, hargument]

theorem instruction_congr (hname : i'.name = i.name) (hattributes : i'.attributes = i.attributes)
    (harguments : ∀ order op, arguments order op i' = arguments order op i) :
    instruction i' = instruction i := by
  unfold instruction opcode
  simp only [tag_congr hname, required_congr hname hattributes, harguments]

theorem arguments_exchanged (h : Exchanged i i' a a')
    (hargument : ∀ order, argument order a' = argument order a) (hname : a'.name = a.name)
    (order : Nat) (op : Opcode) : arguments order op i' = arguments order op i := by
  obtain ⟨before, after, hi, hi'⟩ := h.children
  unfold arguments
  rw [hi, hi']
  simp only [List.length_append, List.length_cons, List.foldlM_append, List.foldlM_cons,
    fill_congr hname (hargument order)]

theorem program_exchanged (h : Exchanged root root' i i')
    (hinstruction : instruction i' = instruction i) : program root' = program root := by
  obtain ⟨before, after, hroot, hroot'⟩ := h.children
  unfold program instructions
  rw [validateRoot_congr h.name h.attributes, hroot, hroot']
  simp only [List.mapM_append, List.mapM_cons, hinstruction]

/-- An argument that is read alike leaves the program as it is. -/
theorem program_argument_exchanged (hi : Exchanged root root' i i') (ha : Exchanged i i' a a')
    (hname : a'.name = a.name) (hargument : ∀ order, argument order a' = argument order a) :
    program root' = program root := by
  apply program_exchanged hi
  apply instruction_congr ha.name ha.attributes
  exact arguments_exchanged ha hargument hname

/-! ## Comments among elements -/

theorem program_commented (h : Commented root root') : program root' = program root := by
  unfold program instructions
  rw [validateRoot_congr h.name h.attributes, h.children]

theorem instruction_commented (h : Commented i i') : instruction i' = instruction i := by
  apply instruction_congr h.name h.attributes
  intro order op
  unfold arguments
  rw [h.children]

/-! ## Comments in arguments -/

/-- An element in a document that is loaded gives an instruction of the program. -/
theorem exists_denotes (hp : program root = .ok p) (hi : i ∈ root.children) :
    ∃ j ∈ p.instructions.toList, Denotes i j := by
  obtain ⟨⟨es, hperm, hdenotes⟩, -⟩ := instructions_of_program hp
  obtain ⟨n, hn, rfl⟩ := List.getElem_of_mem (hperm.mem_iff.mpr hi)
  obtain ⟨hlen, hget⟩ := List.forall₂_iff_get.mp hdenotes
  exact ⟨_, List.get_mem _ _, hget n hn (by omega)⟩

/-- An element gives one order only. -/
theorem Denotes.order_eq {j j' : Instruction} (h : Denotes i j) (h' : Denotes i' j')
    (hattributes : i'.attributes = i.attributes) : j'.order = j.order := by
  obtain ⟨text, htext, horder⟩ := h.order
  obtain ⟨text', htext', horder'⟩ := h'.order
  rw [attribute?_congr hattributes, htext] at htext'
  cases htext'
  have hsome := order_eq_ok_iff.mpr horder
  have hsome' := order_eq_ok_iff.mpr horder'
  rw [hsome] at hsome'
  exact (Except.ok.inj hsome').symm

/-- If a document with another argument is loaded as the same program, both arguments hold the same
operand. -/
theorem exists_operand (hi : Exchanged root root' i i') (ha : Exchanged i i' a a')
    (hname : a'.name = a.name) (hp : program root = .ok p) (hp' : program root' = .ok p) :
    ∃ x, HoldsOperand a x ∧ HoldsOperand a' x := by
  obtain ⟨j, hj, hdenotes⟩ := exists_denotes hp hi.mem_children.1
  obtain ⟨j', hj', hdenotes'⟩ := exists_denotes hp' hi.mem_children.2
  -- The instructions have the same order, and so they are one.
  have hascending := (instructions_of_program hp).2.1
  have heq : j' = j := hascending.eq_of_order hj' hj (hdenotes.order_eq hdenotes' ha.attributes)
  rw [heq] at hdenotes'
  have htags := List.mem_map_of_mem (f := Element.tag) ha.mem_children.1
  obtain ⟨n, -, htag⟩ := List.mem_map.mp (hdenotes.arguments.tags.mem_iff.mp htags)
  obtain ⟨x, hx, hholds⟩ := hdenotes.arguments.operands a ha.mem_children.1 n htag.symm
  obtain ⟨x', hx', hholds'⟩ := hdenotes'.arguments.operands a' ha.mem_children.2 n
    ((tag_congr hname).trans htag.symm)
  rw [hx] at hx'
  cases hx'
  exact ⟨x, hholds, hholds'⟩

/-- **Comments and programs.** A comment in the content of the program element or of an instruction
element changes nothing. One in an argument element leaves the characters in front of it: it changes
nothing if these are all that the leading text has, and a document that is loaded is loaded as the
same program exactly if they denote the same operand. -/
theorem load_commented {text text' : String} (htext : Element.ofText? text = some root)
    (htext' : Element.ofText? text' = some root') :
    (Commented root root' → load text' = load text) ∧
    (∀ i i', Exchanged root root' i i' → Commented i i' → load text' = load text) ∧
    ∀ i i' a a', Exchanged root root' i i' → Exchanged i i' a a' → Commented a a' →
      (∃ lost, a.leadingText = a'.leadingText ++ lost) ∧
      (a'.leadingText = a.leadingText → load text' = load text) ∧
      ∀ p, load text = .ok p →
        (load text' = .ok p ↔ ∃ x, HoldsOperand a x ∧ HoldsOperand a' x) := by
  rw [load_of_root htext, load_of_root htext']
  refine ⟨program_commented, ?_, ?_⟩
  · intro i i' hi hcommented
    exact program_exchanged hi (instruction_commented hcommented)
  · intro i i' a a' hi ha hcommented
    refine ⟨hcommented.leadingText, ?_, ?_⟩
    · intro hsame
      apply program_argument_exchanged hi ha hcommented.name
      exact argument_congr hcommented.name hcommented.attributes hsame
    · intro p hp
      constructor
      · intro hp'
        exact exists_operand hi ha hcommented.name hp hp'
      · rintro ⟨x, hx, hx'⟩
        rw [← hp]
        apply program_argument_exchanged hi ha hcommented.name
        intro order
        rw [argument_eq_ok_iff.mpr hx, argument_eq_ok_iff.mpr hx']

/-- A document whose only instruction writes a string. The argument is given as it is written. -/
def oneWriting (written : String) : String :=
  "<program language=\"IPPcode23\"><instruction order=\"1\" opcode=\"WRITE\"><arg1 type=\"string\">"
    ++ written ++ "</arg1></instruction></program>"

/-- The program of `oneWriting`. -/
def writingOnly (s : String) : Program :=
  ⟨#[{ opcode := .write, args := [.const (.string s)], order := 1 }], .empty⟩

/-- **A comment inside an operand.** It stands between two characters, and the second one is
lost. -/
theorem load_comment_inside_text :
    load (oneWriting ("a" ++ "b")) = .ok (writingOnly "ab") ∧
      load (oneWriting ("a" ++ "<!---->" ++ "b")) = .ok (writingOnly "a") ∧
      writingOnly "a" ≠ writingOnly "ab" := by
  refine ⟨eq_ok_of_toOption ?_, eq_ok_of_toOption ?_, ?_⟩
  · decide +kernel
  · decide +kernel
  · decide

/-- The argument element of `oneWriting`. -/
def stringArgument (content : List Node) : Element :=
  ⟨⟨none, "arg1"⟩, [⟨⟨none, "type"⟩, "string"⟩], content⟩

/-- The instruction element of `oneWriting`. -/
def writeInstruction (content : List Node) : Element :=
  ⟨⟨none, "instruction"⟩, [⟨⟨none, "order"⟩, "1"⟩, ⟨⟨none, "opcode"⟩, "WRITE"⟩],
    [(stringArgument content).node]⟩

/-- The program element of `oneWriting`. -/
def writeDocument (content : List Node) : Element :=
  ⟨⟨none, "program"⟩, [⟨⟨none, "language"⟩, "IPPcode23"⟩], [(writeInstruction content).node]⟩

/-- A comment behind the text of an operand changes nothing. -/
theorem load_commented_behind :
    Element.ofText? (oneWriting "a") = some (writeDocument [.text "a"]) ∧
      Element.ofText? (oneWriting "a<!---->") = some (writeDocument [.text "a", .comment ""]) ∧
      load (oneWriting "a<!---->") = load (oneWriting "a") := by
  have htext : Element.ofText? (oneWriting "a") = some (writeDocument [.text "a"]) := by
    decide +kernel
  have htext' : Element.ofText? (oneWriting "a<!---->") =
      some (writeDocument [.text "a", .comment ""]) := by
    decide +kernel
  have hargument : Commented (stringArgument [.text "a"])
      (stringArgument [.text "a", .comment ""]) := ⟨rfl, rfl, .between [.text "a"] [] ""⟩
  obtain ⟨-, -, hcommented⟩ := load_commented htext htext'
  obtain ⟨-, hsame, -⟩ := hcommented (writeInstruction _) (writeInstruction _) _ _
    ⟨rfl, rfl, [], [], rfl, rfl⟩ ⟨rfl, rfl, [], [], rfl, rfl⟩ hargument
  exact ⟨htext, htext', hsame rfl⟩

end FrameCode.Source
