import FrameCode.Proofs.Documents
import FrameCode.Proofs.Runs

/-!
# The arrangement of a document does not matter

Instructions are sorted by the orders they declare, so the elements that hold them may stand in any
arrangement. If every element is valid, rearranging them rearranges what is read from them, and
sorting forgets the arrangement: the outcome is the same, be it a program or an error. If some
element is not valid, which of several errors is met first does depend on the arrangement; it is an
error of structure in any case.
-/

namespace FrameCode.Source

open FrameCode.Checks FrameCode.Document FrameCode.Machine

variable {root root' : Element} {is : List Instruction}

/-- A document with the same root and the same elements in it, in any arrangement. Texts and
comments between the elements may be others. -/
structure Reordered (root root' : Element) : Prop where
  name : root'.name = root.name
  attributes : root'.attributes = root.attributes
  children : root'.children.Perm root.children

theorem Reordered.symm (h : Reordered root root') : Reordered root' root :=
  ⟨h.name.symm, h.attributes.symm, h.children.symm⟩

theorem Reordered.validateRoot (h : Reordered root root') :
    validateRoot root' = validateRoot root :=
  validateRoot_congr h.name h.attributes

/-! ## Elements that are all valid -/

/-- Every element directly in the root is valid on its own. -/
def AllValid (root : Element) : Prop :=
  ∀ e ∈ root.children, ∃ i, Denotes e i

theorem Reordered.allValid (h : Reordered root root') (hvalid : AllValid root) : AllValid root' :=
  fun e he => hvalid e (h.children.mem_iff.mp he)

/-- The elements are valid exactly if instructions can be read from all of them. -/
theorem allValid_iff : AllValid root ↔ ∃ is, root.children.mapM instruction = .ok is := by
  rw [mapM_isOk_iff]
  simp only [AllValid, instruction_isOk_iff]

/-- What is read from rearranged elements is a rearrangement of what is read from the elements. -/
theorem Reordered.exists_mapM (h : Reordered root root')
    (his : root.children.mapM instruction = .ok is) :
    ∃ is', root'.children.mapM instruction = .ok is' ∧ is'.Perm is := by
  obtain ⟨is', his', hperm⟩ :=
    List.perm_comp_forall₂ h.children (mapM_instruction_iff.mp his)
  exact ⟨is', mapM_instruction_iff.mpr his', hperm⟩

theorem program_of_mapM (hvalid : root.children.mapM instruction = .ok is) :
    program root = (do
      Source.validateRoot root
      Program.ofInstructions (← sorted is)) := by
  unfold program instructions
  rw [hvalid]
  cases Source.validateRoot root with
  | error e => rfl
  | ok _ => rfl

/-- **Valid elements.** If each element is valid on its own, the arrangement does not matter at
all. -/
theorem Reordered.program_eq (h : Reordered root root') (hvalid : AllValid root) :
    program root' = program root := by
  obtain ⟨is, his⟩ := allValid_iff.mp hvalid
  obtain ⟨is', his', hperm⟩ := h.exists_mapM his
  rw [program_of_mapM his', program_of_mapM his, h.validateRoot, sorted_perm hperm]

/-- With a valid root and valid elements, what can still be wrong are orders and labels. -/
theorem duplicate_of_error (hroot : ValidRoot root) (hvalid : AllValid root) {e : SourceError}
    (he : program root = .error e) :
    (∃ n, e = .duplicateOrder n) ∨ ∃ name, e = .duplicateLabel name := by
  obtain ⟨is, his⟩ := allValid_iff.mp hvalid
  rw [program_of_mapM his, validateRoot_eq_ok_iff.mpr hroot, ok_bind] at he
  rcases bind_eq_error.mp he with he | ⟨js, -, he⟩
  · exact .inl (sorted_failsOnly is e he)
  · exact .inr (Program.ofInstructions_failsOnly js e he)

/-! ## Elements that are not all valid -/

theorem program_error_of_not_allValid (h : ¬AllValid root) :
    ∃ e, program root = .error e ∧ Structural e := by
  refine program_structural ?_
  rintro ⟨js, hjs⟩
  obtain ⟨_, -, hjs⟩ := bind_eq_ok.mp hjs
  obtain ⟨is, his, -⟩ := bind_eq_ok.mp hjs
  exact h (allValid_iff.mpr ⟨is, his⟩)

/-- A document that is loaded is loaded as the same program when it is rearranged. -/
theorem Reordered.program_ok (h : Reordered root root') {p : Program}
    (hp : program root = .ok p) : program root' = .ok p := by
  by_cases hvalid : AllValid root
  · rw [h.program_eq hvalid, hp]
  · obtain ⟨e, he, -⟩ := program_error_of_not_allValid hvalid
    rw [he] at hp
    cases hp

/-- A document that is refused is refused with the same exit code when it is rearranged. -/
theorem Reordered.program_error (h : Reordered root root') {e : SourceError}
    (he : program root = .error e) :
    ∃ e', program root' = .error e' ∧ e'.exitCode = e.exitCode := by
  by_cases hvalid : AllValid root
  · exact ⟨e, by rw [h.program_eq hvalid, he], rfl⟩
  · -- The errors may differ now, but neither document gets past the errors of structure.
    have hvalid' : ¬AllValid root' := fun h' => hvalid (h.symm.allValid h')
    obtain ⟨d, hd, hstructural⟩ := program_error_of_not_allValid hvalid
    obtain ⟨d', hd', hstructural'⟩ := program_error_of_not_allValid hvalid'
    rw [he] at hd
    cases hd
    exact ⟨d', hd', hstructural'.trans hstructural.symm⟩

theorem load_of_root {text : String} (h : Element.ofText? text = some root) :
    load text = program root := by
  unfold load
  rw [h]

/-- **The arrangement of a document does not matter.** A document and one with its elements
rearranged are loaded as the same program, or are refused with the same exit code. If each element
is valid on its own they are refused with the same error, which is about a duplicate order or a
duplicate label, the root being valid. So the two documents have the same runs. -/
theorem load_reordered {text text' : String} (htext : Element.ofText? text = some root)
    (htext' : Element.ofText? text' = some root') (h : Reordered root root') :
    (∀ p, load text = .ok p → load text' = .ok p) ∧
    (∀ e, load text = .error e → ∃ e', load text' = .error e' ∧ e'.exitCode = e.exitCode) ∧
    ((∀ c ∈ root.children, ∃ i, Denotes c i) →
      load text' = load text ∧
        ∀ e, load text = .error e → ValidRoot root →
          (∃ n, e = .duplicateOrder n) ∨ ∃ name, e = .duplicateLabel name) ∧
    ∀ input output diagnostics f,
      (∃ p, load text = .ok p ∧ Ends p (.initial input output diagnostics) f) ↔
        ∃ p, load text' = .ok p ∧ Ends p (.initial input output diagnostics) f := by
  rw [load_of_root htext, load_of_root htext']
  refine ⟨fun p => h.program_ok, fun e => h.program_error, ?_, ?_⟩
  · intro hvalid
    exact ⟨h.program_eq hvalid, fun e he hroot => duplicate_of_error hroot hvalid he⟩
  · intro input output diagnostics f
    constructor
    · rintro ⟨p, hp, hends⟩
      exact ⟨p, h.program_ok hp, hends⟩
    · rintro ⟨p, hp, hends⟩
      exact ⟨p, h.symm.program_ok hp, hends⟩

/-- An instruction element without operands. -/
def bareInstruction (order opcode : String) : Node :=
  .element ⟨none, "instruction"⟩ [⟨⟨none, "order"⟩, order⟩, ⟨⟨none, "opcode"⟩, opcode⟩] []

/-- A program element with two instructions. -/
def pairDocument (first second : Node) : Element :=
  ⟨⟨none, "program"⟩, [⟨⟨none, "language"⟩, "IPPcode23"⟩], [first, second]⟩

/-- Two instructions in descending order. -/
def descendingText : String :=
  "<program language=\"IPPcode23\"><instruction order=\"2\" opcode=\"BREAK\"/>"
    ++ "<instruction order=\"1\" opcode=\"CLEARS\"/></program>"

/-- The instructions of `descendingText` in ascending order. -/
def ascendingText : String :=
  "<program language=\"IPPcode23\"><instruction order=\"1\" opcode=\"CLEARS\"/>"
    ++ "<instruction order=\"2\" opcode=\"BREAK\"/></program>"

/-- The two texts hold one program, with the instructions in ascending order. -/
theorem load_reordered_pair :
    ∃ p, load descendingText = .ok p ∧ load ascendingText = .ok p ∧
      p.instructions.toList.map Instruction.order = [1, 2] := by
  have hroot : Element.ofText? descendingText =
      some (pairDocument (bareInstruction "2" "BREAK") (bareInstruction "1" "CLEARS")) := by
    decide +kernel
  have hroot' : Element.ofText? ascendingText =
      some (pairDocument (bareInstruction "1" "CLEARS") (bareInstruction "2" "BREAK")) := by
    decide +kernel
  have hreordered : Reordered
      (pairDocument (bareInstruction "2" "BREAK") (bareInstruction "1" "CLEARS"))
      (pairDocument (bareInstruction "1" "CLEARS") (bareInstruction "2" "BREAK")) :=
    ⟨rfl, rfl, List.Perm.swap ..⟩
  let clears : Instruction := { opcode := .clears, args := [], order := 1 }
  let breakpoint : Instruction := { opcode := .breakpoint, args := [], order := 2 }
  have hvalid : Source.validateRoot
      (pairDocument (bareInstruction "2" "BREAK") (bareInstruction "1" "CLEARS")) = .ok () :=
    eq_ok_of_toOption (by decide +kernel)
  have hread : (pairDocument (bareInstruction "2" "BREAK")
      (bareInstruction "1" "CLEARS")).children.mapM instruction = .ok [breakpoint, clears] :=
    eq_ok_of_toOption (by decide +kernel)
  have hsorted : sorted [breakpoint, clears] = .ok [clears, breakpoint] :=
    sorted_eq_ok_iff.mpr ⟨List.Perm.swap .., by simp [StrictlyAscending, clears, breakpoint]⟩
  have hload : load descendingText =
      .ok ⟨(Program.number [clears, breakpoint]).toArray, .empty⟩ := by
    rw [load_of_root hroot, program_of_mapM hread, hvalid, ok_bind, hsorted]
    rfl
  exact ⟨_, hload, (load_reordered hroot hroot' hreordered).1 _ hload, rfl⟩

end FrameCode.Source
