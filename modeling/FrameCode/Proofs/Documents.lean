import FrameCode.Proofs.Elements
import FrameCode.Proofs.Programs
import FrameCode.Proofs.Sorting
import Mathlib.Data.List.Forall2

/-!
# Documents that hold a program

A document holds a program if its root is a valid program element, each element in it gives an
instruction, the orders of these differ (`Declares`) and no two of them define the same label. The
checks of loading are made in several passes, the second over elements, the third over the sorted
instructions and the fourth over their labels, and which error is reported depends on which pass
meets one first. Its class does not: a document that fails before the last pass has an error of
structure, and one that fails in the last pass has a duplicate label.

A program that is loaded has each instruction of the document once, sorted by order.
-/

namespace FrameCode

open FrameCode.Checks FrameCode.Text

/-! ## A check for each entry -/

namespace Checks

variable {ε α β : Type}

/-- A list passes a check exactly if each entry does, and the results stand in the same places. -/
theorem mapM_eq_ok_iff {f : α → Except ε β} {xs : List α} {ys : List β} :
    xs.mapM f = .ok ys ↔ List.Forall₂ (fun x y => f x = .ok y) xs ys := by
  induction xs generalizing ys with
  | nil =>
    rw [List.mapM_nil, pure_eq, Except.ok.injEq, List.forall₂_nil_left_iff, eq_comm]
  | cons x xs ih =>
    rw [List.mapM_cons, bind_eq_ok, List.forall₂_cons_left_iff]
    constructor
    · rintro ⟨y, hy, h⟩
      obtain ⟨rest, hrest, h⟩ := bind_eq_ok.mp h
      cases h
      exact ⟨y, rest, hy, ih.mp hrest, rfl⟩
    · rintro ⟨y, rest, hy, hrest, rfl⟩
      exact ⟨y, hy, bind_eq_ok.mpr ⟨rest, ih.mpr hrest, rfl⟩⟩

end Checks

/-! ## Labels -/

namespace Program

/-- Building a program fails for a duplicate label only. -/
theorem ofInstructions_failsOnly (is : List Instruction) :
    FailsOnly (fun e => ∃ name, e = .duplicateLabel name) (ofInstructions is) := by
  refine failsOnly_bind ?_ fun _ _ => failsOnly_ok _
  refine failsOnly_foldlM ?_ _ _
  intro t i
  unfold Labels.enter Labels.define
  split
  · rename_i name _
    split
    · exact failsOnly_error ⟨name, rfl⟩
    · exact failsOnly_ok _
  · exact failsOnly_ok _

theorem map_order_number (is : List Instruction) :
    (number is).map Instruction.order = is.map Instruction.order := by
  refine List.ext_getElem? ?_
  intro n
  rw [List.getElem?_map, List.getElem?_map, getElem?_number, Option.map_map]
  rfl

end Program

namespace Source

open FrameCode.Document

variable {root : Element} {e : Element} {i : Instruction} {is js : List Instruction} {p : Program}

/-! ## The root -/

/-- The element that holds a program: its name, the local names of its attributes, and the language
that it gives in an attribute without a namespace. -/
structure ValidRoot (root : Element) : Prop where
  tag : root.tag = "program"
  attributes : ∀ a ∈ root.attributes, a.name.localName ∈ ["language", "name", "description"]
  language : ∃ found, root.attribute? "language" = some found ∧
    sameLetters found.toList "IPPcode23".toList = true

theorem find?_rootAttributes_eq_none_iff :
    (root.attributes.find? fun a => !rootAttributes.contains a.name.localName) = none ↔
      ∀ a ∈ root.attributes, a.name.localName ∈ ["language", "name", "description"] := by
  rw [List.find?_eq_none]
  refine forall_congr' fun a => forall_congr' fun _ => ?_
  rw [Bool.not_eq_true, Bool.not_eq_false', List.contains_iff_mem]
  rfl

/-- The language of a root is the empty text if it gives none, and no language is called so. -/
theorem language_iff :
    sameLetters ((root.attribute? "language").getD "").toList language.toList = true ↔
      ∃ found, root.attribute? "language" = some found ∧
        sameLetters found.toList "IPPcode23".toList = true := by
  cases root.attribute? "language" with
  | none =>
    have hempty : sameLetters [] language.toList = false := by decide
    simp [hempty]
  | some found => simp [language]

theorem validateRoot_eq_ok_iff : validateRoot root = .ok () ↔ ValidRoot root := by
  unfold validateRoot
  dsimp only
  constructor
  · intro h
    split at h
    · cases h
    · rename_i hattributes
      split at h
      · cases h
      · rename_i htag
        split at h
        · rename_i hlanguage
          exact ⟨Decidable.not_not.mp htag, find?_rootAttributes_eq_none_iff.mp hattributes,
            language_iff.mp hlanguage⟩
        · cases h
  · rintro ⟨htag, hattributes, hlanguage⟩
    rw [find?_rootAttributes_eq_none_iff.mpr hattributes]
    dsimp only
    rw [if_neg (not_not_intro htag), if_pos (language_iff.mpr hlanguage)]

/-- The checks on a root look at its name and its attributes only. -/
theorem validateRoot_congr {root' : Element} (hname : root'.name = root.name)
    (hattributes : root'.attributes = root.attributes) :
    validateRoot root' = validateRoot root := by
  unfold validateRoot Element.tag Element.attribute?
  rw [hname, hattributes]

theorem validateRoot_structural (root : Element) : FailsOnly Structural (validateRoot root) := by
  unfold validateRoot
  dsimp only
  split
  · exact failsOnly_error rfl
  · split
    · exact failsOnly_error rfl
    · split
      · exact failsOnly_ok _
      · exact failsOnly_error rfl

/-! ## The instructions of a document -/

/-- Which instruction an element gives does not depend on a place. -/
theorem Denotes.placed (h : Denotes e i) (n : Nat) : Denotes e { i with index := n } where
  tag := h.tag
  order := h.order
  opcode := h.opcode
  arguments := h.arguments
  wellFormed := h.wellFormed.congr rfl rfl

/-- An element is accepted exactly if it gives some instruction. -/
theorem instruction_isOk_iff : (∃ i, instruction e = .ok i) ↔ ∃ i, Denotes e i := by
  simp only [instruction_eq_ok_iff]
  constructor
  · rintro ⟨i, hi, -⟩
    exact ⟨i, hi⟩
  · rintro ⟨i, hi⟩
    exact ⟨_, hi.placed 0, rfl⟩

/-- A document is a valid root with elements that give instructions of different orders. -/
structure Declares (root : Element) (is : List Instruction) : Prop where
  validRoot : ValidRoot root
  instructions : List.Forall₂ Denotes root.children is
  orders : (is.map Instruction.order).Nodup

theorem mapM_instruction_iff :
    root.children.mapM instruction = .ok is ↔
      List.Forall₂ (fun e i => Denotes e i ∧ i.index = 0) root.children is := by
  simp only [mapM_eq_ok_iff, instruction_eq_ok_iff]

theorem instructions_eq_ok_iff :
    instructions root = .ok js ↔
      ValidRoot root ∧ ∃ is, List.Forall₂ (fun e i => Denotes e i ∧ i.index = 0) root.children is ∧
        js.Perm is ∧ StrictlyAscending js := by
  unfold instructions
  simp only [bind_eq_ok, mapM_instruction_iff, sorted_eq_ok_iff]
  constructor
  · rintro ⟨_, hroot, is, his, hsort⟩
    exact ⟨validateRoot_eq_ok_iff.mp hroot, is, his, hsort⟩
  · rintro ⟨hroot, is, his, hsort⟩
    exact ⟨(), validateRoot_eq_ok_iff.mpr hroot, is, his, hsort⟩

theorem instructions_structural (root : Element) : FailsOnly Structural (instructions root) := by
  refine failsOnly_bind (validateRoot_structural root) fun _ _ => ?_
  refine failsOnly_bind (failsOnly_mapM instruction_structural _) fun is _ => ?_
  refine (sorted_failsOnly is).mono ?_
  rintro _ ⟨n, rfl⟩
  rfl

/-- The instructions that are read are those of the document, at no place yet. -/
theorem Declares.exists_unplaced (h : Declares root is) :
    ∃ is', List.Forall₂ (fun e i => Denotes e i ∧ i.index = 0) root.children is' ∧
      is'.map Instruction.order = is.map Instruction.order ∧
      is'.filterMap Instruction.label? = is.filterMap Instruction.label? := by
  refine ⟨is.map fun i => { i with index := 0 }, ?_, ?_, ?_⟩
  · rw [List.forall₂_map_right_iff]
    exact h.instructions.imp fun e i hi => ⟨hi.placed 0, rfl⟩
  · rw [List.map_map]
    rfl
  · rw [List.filterMap_map]
    rfl

/-- **Up to labels.** What is sorted has the labels of the document, if the document declares
instructions; otherwise sorting is not reached or fails. -/
theorem exists_instructions_iff {labelled : List String → Prop}
    (hperm : ∀ l l', l.Perm l' → labelled l → labelled l') :
    (∃ js, instructions root = .ok js ∧ labelled (js.filterMap Instruction.label?)) ↔
      ∃ is, Declares root is ∧ labelled (is.filterMap Instruction.label?) := by
  constructor
  · rintro ⟨js, hjs, hlabelled⟩
    obtain ⟨hroot, is, his, hsort, hstrict⟩ := instructions_eq_ok_iff.mp hjs
    have horders := sorted_isOk_iff.mp ⟨js, sorted_eq_ok_iff.mpr ⟨hsort, hstrict⟩⟩
    exact ⟨is, ⟨hroot, his.imp fun _ _ h => h.1, horders⟩,
      hperm _ _ (hsort.filterMap _) hlabelled⟩
  · rintro ⟨is, hdeclares, hlabelled⟩
    -- Reading gives the instructions at no place, while a document declares them at any.
    obtain ⟨is', his', horders, hlabels⟩ := hdeclares.exists_unplaced
    have hnodup := hdeclares.orders
    rw [← horders] at hnodup
    obtain ⟨js, hjs⟩ := sorted_isOk_iff.mpr hnodup
    obtain ⟨hsort, hstrict⟩ := sorted_eq_ok_iff.mp hjs
    refine ⟨js, instructions_eq_ok_iff.mpr ⟨hdeclares.validRoot, is', his', hsort, hstrict⟩, ?_⟩
    rw [← hlabels] at hlabelled
    exact hperm _ _ (hsort.filterMap _).symm hlabelled

theorem exists_declares_iff : (∃ js, instructions root = .ok js) ↔ ∃ is, Declares root is := by
  have hkept : ∀ l l' : List String, l.Perm l' → True → True := fun _ _ _ h => h
  simpa using exists_instructions_iff hkept

/-! ## The program of a document -/

theorem program_eq_ok_iff :
    program root = .ok p ↔ ∃ js, instructions root = .ok js ∧ Program.ofInstructions js = .ok p :=
  bind_eq_ok

/-- A program cannot be built from sorted instructions exactly if a label is there twice. -/
theorem ofInstructions_eq_error_iff :
    (∃ name, Program.ofInstructions js = .error (.duplicateLabel name)) ↔
      ¬(js.filterMap Instruction.label?).Nodup := by
  rw [← Program.ofInstructions_isOk_iff]
  constructor
  · rintro ⟨name, hname⟩ ⟨p, hp⟩
    rw [hname] at hp
    cases hp
  · intro hnot
    rcases hjs : Program.ofInstructions js with e | p
    · obtain ⟨name, rfl⟩ := Program.ofInstructions_failsOnly js e hjs
      exact ⟨name, rfl⟩
    · exact absurd ⟨p, hjs⟩ hnot

theorem program_isOk_iff :
    (∃ p, program root = .ok p) ↔
      ∃ js, instructions root = .ok js ∧ (js.filterMap Instruction.label?).Nodup := by
  simp only [program_eq_ok_iff, ← Program.ofInstructions_isOk_iff]
  constructor
  · rintro ⟨p, js, hjs, hp⟩
    exact ⟨js, hjs, p, hp⟩
  · rintro ⟨js, hjs, p, hp⟩
    exact ⟨p, js, hjs, hp⟩

theorem program_duplicateLabel_iff :
    (∃ name, program root = .error (.duplicateLabel name)) ↔
      ∃ js, instructions root = .ok js ∧ ¬(js.filterMap Instruction.label?).Nodup := by
  simp only [← ofInstructions_eq_error_iff]
  constructor
  · rintro ⟨name, h⟩
    rcases bind_eq_error.mp h with h | ⟨js, hjs, h⟩
    · -- Before the labels only errors of structure are met.
      cases instructions_structural root _ h
    · exact ⟨js, hjs, name, h⟩
  · rintro ⟨js, hjs, name, h⟩
    exact ⟨name, bind_eq_error.mpr (.inr ⟨js, hjs, h⟩)⟩

theorem program_structural (h : ¬∃ js, instructions root = .ok js) :
    ∃ e, program root = .error e ∧ Structural e := by
  rcases hjs : instructions root with e | js
  · exact ⟨e, bind_eq_error.mpr (.inl hjs), instructions_structural root e hjs⟩
  · exact absurd ⟨js, hjs⟩ h

/-- What two lists have in common place by place, they have when the second one is rearranged and
the first one with it. -/
theorem exists_perm_of_forall₂ {α β : Type} {r : α → β → Prop} {xs : List α} {ys zs : List β}
    (h : List.Forall₂ r xs ys) (hperm : zs.Perm ys) : ∃ ws, ws.Perm xs ∧ List.Forall₂ r ws zs := by
  obtain ⟨ws, hws, hperm'⟩ := List.perm_comp_forall₂ hperm h.flip
  exact ⟨ws, hperm', hws.flip⟩

theorem forall₂_number {es : List Element} (h : List.Forall₂ Denotes es js) :
    List.Forall₂ Denotes es (Program.number js) := by
  rw [List.forall₂_iff_get] at h ⊢
  obtain ⟨hlen, hget⟩ := h
  refine ⟨?_, ?_⟩
  · rw [Program.number, List.length_mapIdx, hlen]
  · intro n hes hjs
    have hlt : n < js.length := by omega
    have hn := (hget n hes hlt).placed n
    simpa [Program.number] using hn

/-- The instructions of a loaded program are those that the elements give, each once and sorted by
order, and each knows its place. -/
theorem instructions_of_program (h : program root = .ok p) :
    (∃ es, es.Perm root.children ∧ List.Forall₂ Denotes es p.instructions.toList) ∧
      StrictlyAscending p.instructions.toList ∧
      ∀ (n : Nat) (i : Instruction), p.instructions[n]? = some i → i.index = n := by
  obtain ⟨js, hjs, hp⟩ := program_eq_ok_iff.mp h
  obtain ⟨-, is, his, hsort, hstrict⟩ := instructions_eq_ok_iff.mp hjs
  have hlist : p.instructions.toList = Program.number js := by
    rw [(Program.ofInstructions_eq_ok hp).1]
  refine ⟨?_, ?_, ?_⟩
  · obtain ⟨es, hes, hdenotes⟩ := exists_perm_of_forall₂ his hsort
    rw [hlist]
    exact ⟨es, hes, forall₂_number (hdenotes.imp fun _ _ h => h.1)⟩
  · -- Numbering changes places only, so the orders ascend as they did.
    unfold StrictlyAscending at hstrict ⊢
    rw [← List.pairwise_map, hlist, Program.map_order_number, List.pairwise_map]
    exact hstrict
  · intro n i hi
    rw [Program.getElem?_ofInstructions hp] at hi
    obtain ⟨j, -, rfl⟩ := Option.map_eq_some_iff.mp hi
    rfl

/-- **Loading is exact.** A document is accepted exactly if it declares instructions and no two of
them define one label. It is refused for a duplicate label exactly if it declares instructions and
two of them do, and for an error of structure if it does not declare instructions. The program that
is loaded has the instructions of the document, each once, in ascending order and at their places. A
text is loaded as the document that it is, and refused if it is none. -/
theorem program_exact (root : Element) :
    ((∃ p, program root = .ok p) ↔
      ∃ is, Declares root is ∧ (is.filterMap Instruction.label?).Nodup) ∧
    ((∃ name, program root = .error (.duplicateLabel name)) ↔
      ∃ is, Declares root is ∧ ¬(is.filterMap Instruction.label?).Nodup) ∧
    ((¬∃ is, Declares root is) → ∃ e, program root = .error e ∧ e.exitCode = 32) ∧
    (∀ e, program root = .error e → e.exitCode = 32 ∨
      e.exitCode = 52 ∧ ∃ name, e = .duplicateLabel name) ∧
    (∀ p, program root = .ok p →
      (∃ es, es.Perm root.children ∧ List.Forall₂ Denotes es p.instructions.toList) ∧
        p.instructions.toList.Pairwise (fun a b => a.order < b.order) ∧
        ∀ (n : Nat) (i : Instruction), p.instructions[n]? = some i → i.index = n) ∧
    ∀ text, (Element.ofText? text = some root → load text = program root) ∧
      (Element.ofText? text = none →
        load text = .error .malformed ∧ SourceError.malformed.exitCode = 31) := by
  refine ⟨?_, ?_, ?_, ?_, ?_, ?_⟩
  · rw [program_isOk_iff]
    exact exists_instructions_iff fun _ _ hperm hnodup => hperm.nodup_iff.mp hnodup
  · rw [program_duplicateLabel_iff]
    have hkept : ∀ l l' : List String, l.Perm l' → ¬l.Nodup → ¬l'.Nodup :=
      fun _ _ hperm hnot hnodup => hnot (hperm.nodup_iff.mpr hnodup)
    exact exists_instructions_iff hkept
  · intro hnot
    exact program_structural fun hjs => hnot (exists_declares_iff.mp hjs)
  · intro e h
    rcases bind_eq_error.mp h with h | ⟨js, -, h⟩
    · exact .inl (instructions_structural root e h)
    · obtain ⟨name, rfl⟩ := Program.ofInstructions_failsOnly js e h
      exact .inr ⟨rfl, name, rfl⟩
  · intro p hp
    exact instructions_of_program hp
  · intro text
    unfold load
    refine ⟨?_, ?_⟩
    · intro h
      rw [h]
    · intro h
      rw [h]
      exact ⟨rfl, rfl⟩

end Source

end FrameCode
