import FrameCode.Language.Program
import FrameCode.Proofs.Checks

/-!
# Programs as they are built

`Program.ofInstructions` numbers its instructions and enters their labels into a table. Three facts
about it carry every later statement on control flow:

* the instruction at a place is the one at this place of the list, with its place noted
  (`getElem?_ofInstructions`);
* a name resolves to a place exactly if the instruction there is a label with this name
  (`resolve?_ofInstructions`);
* building succeeds exactly if no name is defined twice (`ofInstructions_isOk_iff`).

The table is a fold over the list, so the lemmas on it are stated for a fold that starts anywhere.
-/

namespace FrameCode

open FrameCode.Checks

/-! ## The table of labels -/

namespace Labels

variable {t t' : Labels} {i : Instruction} {is : List Instruction} {name : String} {place : Nat}

theorem resolve?_cons (name' : String) (place' : Nat) (entries : List (String × Nat)) :
    (⟨(name', place') :: entries⟩ : Labels).resolve? name =
      if name = name' then some place' else (⟨entries⟩ : Labels).resolve? name :=
  lookup_cons_ite name name' place' entries

/-- Entering one instruction: one that is no label changes nothing, and a label adds its name, which
must be new. -/
theorem enter_eq_ok (h : t.enter i = .ok t') :
    (i.label? = none ∧ t' = t) ∨
      ∃ name, i.label? = some name ∧ t.resolve? name = none ∧
        t' = ⟨(name, i.index) :: t.entries⟩ := by
  unfold enter at h
  split at h
  · rename_i name hname
    unfold define at h
    split at h
    · cases h
    · rename_i hnew
      cases h
      exact .inr ⟨name, hname, hnew, rfl⟩
  · rename_i hnone
    cases h
    exact .inl ⟨hnone, rfl⟩

/-- One instruction more makes exactly its own label resolve, to its own place. -/
theorem resolve?_enter (h : t.enter i = .ok t') :
    t'.resolve? name = some place ↔
      t.resolve? name = some place ∨ i.label? = some name ∧ i.index = place := by
  rcases enter_eq_ok h with ⟨hnone, rfl⟩ | ⟨name', hname', hnew, rfl⟩
  · rw [hnone]
    constructor
    · exact .inl
    · rintro (h | ⟨h, -⟩)
      · exact h
      · cases h
  · rw [resolve?_cons, hname']
    by_cases hn : name = name'
    · subst hn
      rw [if_pos rfl, hnew]
      constructor
      · intro h
        exact .inr ⟨rfl, Option.some.inj h⟩
      · rintro (h | ⟨-, h⟩)
        · cases h
        · rw [h]
    · rw [if_neg hn]
      constructor
      · exact .inl
      · rintro (h | ⟨h, -⟩)
        · exact h
        · exact absurd (Option.some.inj h).symm hn

/-- After a list, a name resolves where it did before or where the list defines it. -/
theorem resolve?_foldlM (h : is.foldlM enter t = .ok t') :
    t'.resolve? name = some place ↔
      t.resolve? name = some place ∨ ∃ i ∈ is, i.label? = some name ∧ i.index = place := by
  induction is generalizing t with
  | nil =>
    rw [List.foldlM_nil] at h
    cases h
    constructor
    · exact .inl
    · rintro (h | ⟨i, hi, -⟩)
      · exact h
      · cases hi
  | cons i is ih =>
    rw [List.foldlM_cons, bind_eq_ok] at h
    obtain ⟨u, hu, h⟩ := h
    rw [ih h, resolve?_enter hu, or_assoc]
    refine or_congr_right ?_
    constructor
    · rintro (h | ⟨j, hj, h⟩)
      · exact ⟨i, List.mem_cons_self .., h⟩
      · exact ⟨j, List.mem_cons_of_mem _ hj, h⟩
    · rintro ⟨j, hj, h⟩
      rcases List.mem_cons.mp hj with rfl | hj
      · exact .inl h
      · exact .inr ⟨j, hj, h⟩

/-- A list can be entered if it defines each name once and no name that is there already. -/
theorem foldlM_isOk_iff (is : List Instruction) (t : Labels) :
    (∃ t', is.foldlM enter t = .ok t') ↔
      (is.filterMap Instruction.label?).Nodup ∧
        ∀ name ∈ is.filterMap Instruction.label?, t.resolve? name = none := by
  induction is generalizing t with
  | nil =>
    rw [List.foldlM_nil, List.filterMap_nil]
    constructor
    · intro _
      exact ⟨List.nodup_nil, fun name h => by cases h⟩
    · intro _
      exact ⟨t, rfl⟩
  | cons i is ih =>
    cases hlabel : i.label? with
    | none =>
      have henter : t.enter i = .ok t := by
        unfold enter
        rw [hlabel]
      rw [List.foldlM_cons, henter, ok_bind, ih, List.filterMap_cons_none hlabel]
    | some name =>
      rw [List.filterMap_cons_some hlabel, List.foldlM_cons, List.nodup_cons]
      have henter : t.enter i = t.define name i.index := by
        unfold enter
        rw [hlabel]
      rw [henter]
      unfold define
      cases hold : t.resolve? name with
      | some place =>
        -- The name is taken, so entering it fails, and the right-hand side says it is not.
        constructor
        · rintro ⟨t', h⟩
          cases h
        · rintro ⟨-, hall⟩
          rw [hall name (List.mem_cons_self ..)] at hold
          cases hold
      | none =>
        -- The rest must avoid the name as well: it has become one that is there already.
        simp only [ok_bind, ih, resolve?_cons]
        constructor
        · rintro ⟨hnodup, hall⟩
          have hnew : name ∉ is.filterMap Instruction.label? := by
            intro hmem
            have h := hall name hmem
            rw [if_pos rfl] at h
            cases h
          refine ⟨⟨hnew, hnodup⟩, ?_⟩
          intro name' hmem
          rcases List.mem_cons.mp hmem with rfl | hmem
          · exact hold
          · have hne : name' ≠ name := fun h => hnew (h ▸ hmem)
            have h := hall name' hmem
            rwa [if_neg hne] at h
        · rintro ⟨⟨hnew, hnodup⟩, hall⟩
          refine ⟨hnodup, ?_⟩
          intro name' hmem
          have hne : name' ≠ name := fun h => hnew (h ▸ hmem)
          rw [if_neg hne]
          exact hall name' (List.mem_cons_of_mem _ hmem)

end Labels

/-! ## Numbering -/

namespace Program

variable {is : List Instruction} {p : Program}

theorem getElem?_number (is : List Instruction) (n : Nat) :
    (number is)[n]? = is[n]?.map fun i => { i with index := n } := by
  unfold number
  rw [List.getElem?_mapIdx]

/-- Numbering leaves the names that a list defines alone. -/
theorem filterMap_label?_number (is : List Instruction) :
    (number is).filterMap Instruction.label? = is.filterMap Instruction.label? := by
  unfold number
  rw [List.mapIdx_eq_zipIdx_map, List.filterMap_map]
  have hcomp : (Instruction.label? ∘ fun (x : Instruction × Nat) => { x.1 with index := x.2 })
      = Instruction.label? ∘ Prod.fst := rfl
  have hfst : is.zipIdx.map Prod.fst = is := List.zipIdx_map_fst ..
  rw [hcomp, ← List.filterMap_map, hfst]

/-! ## Building -/

theorem ofInstructions_eq_ok (h : ofInstructions is = .ok p) :
    p.instructions = (number is).toArray ∧ Labels.ofInstructions (number is) = .ok p.labels := by
  obtain ⟨labels, hlabels, h⟩ := bind_eq_ok.mp h
  cases h
  exact ⟨rfl, hlabels⟩

/-- The instruction at a place is the one at this place of the list, with its place noted. -/
theorem getElem?_ofInstructions (h : ofInstructions is = .ok p) (n : Nat) :
    p.instructions[n]? = is[n]?.map fun i => { i with index := n } := by
  rw [(ofInstructions_eq_ok h).1, List.getElem?_toArray, getElem?_number]

theorem size_ofInstructions (h : ofInstructions is = .ok p) : p.size = is.length := by
  unfold size
  rw [(ofInstructions_eq_ok h).1, List.size_toArray, number, List.length_mapIdx]

/-- Every instruction knows its place. -/
def Numbered (p : Program) : Prop :=
  ∀ (n : Nat) (i : Instruction), p.instructions[n]? = some i → i.index = n

theorem numbered_ofInstructions (h : ofInstructions is = .ok p) : p.Numbered := by
  intro n i hi
  rw [getElem?_ofInstructions h] at hi
  obtain ⟨j, -, rfl⟩ := Option.map_eq_some_iff.mp hi
  rfl

/-- **Resolution.** A name resolves to a place exactly if the instruction there is a label with this
name. -/
theorem resolve?_ofInstructions (h : ofInstructions is = .ok p) {name : String} {place : Nat} :
    p.labels.resolve? name = some place ↔ ∃ i, is[place]? = some i ∧ i.label? = some name := by
  have hfold : (number is).foldlM Labels.enter .empty = .ok p.labels := (ofInstructions_eq_ok h).2
  have hempty : Labels.empty.resolve? name ≠ some place := by
    intro h
    cases h
  rw [Labels.resolve?_foldlM hfold, or_iff_right hempty]
  constructor
  · rintro ⟨j, hj, hlabel, hindex⟩
    -- Numbering has noted the place `n`, which is therefore the one that the table gives.
    obtain ⟨n, hn⟩ := List.mem_iff_getElem?.mp hj
    rw [getElem?_number] at hn
    obtain ⟨i, hi, rfl⟩ := Option.map_eq_some_iff.mp hn
    cases hindex
    exact ⟨i, hi, hlabel⟩
  · rintro ⟨i, hi, hlabel⟩
    refine ⟨{ i with index := place }, ?_, hlabel, rfl⟩
    refine List.mem_iff_getElem?.mpr ⟨place, ?_⟩
    rw [getElem?_number, hi, Option.map_some]

/-- A list makes a program exactly if it defines no name twice. -/
theorem ofInstructions_isOk_iff (is : List Instruction) :
    (∃ p, ofInstructions is = .ok p) ↔ (is.filterMap Instruction.label?).Nodup := by
  have hfold := Labels.foldlM_isOk_iff (number is) .empty
  rw [filterMap_label?_number] at hfold
  constructor
  · rintro ⟨p, h⟩
    exact (hfold.mp ⟨p.labels, (ofInstructions_eq_ok h).2⟩).1
  · intro hnodup
    obtain ⟨labels, hlabels⟩ := hfold.mpr ⟨hnodup, fun _ _ => rfl⟩
    refine ⟨⟨(number is).toArray, labels⟩, ?_⟩
    exact bind_eq_ok.mpr ⟨labels, hlabels, rfl⟩

end Program

end FrameCode
