import FrameCode.Proofs.Programs

/-!
# The table of labels

A program has a table that takes each label to its place. What the table says is told here by the
list of instructions alone: an instruction defines a name if it is a label instruction with this
name as its first operand (`Defines`), and a name is defined at the places of such instructions
(`DefinedAt`). Label instructions without a name, which only a program put together by hand can
have, define nothing.

The list is gone through once, and each name is entered if it is new. So building fails at the first
place where a name is defined again (`FirstRepeat`), whichever names come up twice later on, and
otherwise every definition has made one entry.
-/

namespace FrameCode

open FrameCode.Checks

variable {i : Instruction} {is : List Instruction} {name : String} {place m n : Nat}

/-! ## Definitions -/

/-- An instruction defines a name if it is a label instruction with this name as its first
operand. -/
def Instruction.Defines (i : Instruction) (name : String) : Prop :=
  i.opcode = .label ∧ i.args.head? = some (.label name)

theorem Instruction.label?_eq_some_iff : i.label? = some name ↔ i.Defines name := by
  unfold label? Defines
  split
  · rename_i hopcode hargs
    simp [hopcode, hargs]
  · rename_i hother
    constructor
    · intro h
      cases h
    · rintro ⟨hopcode, hargs⟩
      obtain ⟨rest, hrest⟩ := List.head?_eq_some_iff.mp hargs
      exact absurd hrest (hother name rest hopcode)

theorem Instruction.isSome_label?_iff : i.label?.isSome = true ↔ ∃ name, i.Defines name := by
  simp only [Option.isSome_iff_exists, label?_eq_some_iff]

instance (i : Instruction) : Decidable (∃ name, i.Defines name) :=
  decidable_of_iff _ Instruction.isSome_label?_iff

/-- The instruction at a place of a list defines a name. -/
def DefinedAt (is : List Instruction) (place : Nat) (name : String) : Prop :=
  ∃ i, is[place]? = some i ∧ i.Defines name

theorem definedAt_take :
    DefinedAt (is.take n) place name ↔ place < n ∧ DefinedAt is place name := by
  unfold DefinedAt
  rw [List.getElem?_take]
  by_cases h : place < n
  · simp [h]
  · simp [h]

theorem exists_definedAt_iff :
    (∃ place, DefinedAt is place name) ↔ ∃ i ∈ is, i.label? = some name := by
  unfold DefinedAt
  constructor
  · rintro ⟨place, i, hi, hname⟩
    exact ⟨i, List.mem_of_getElem? hi, Instruction.label?_eq_some_iff.mpr hname⟩
  · rintro ⟨i, hi, hname⟩
    obtain ⟨place, hplace⟩ := List.mem_iff_getElem?.mp hi
    exact ⟨place, i, hplace, Instruction.label?_eq_some_iff.mp hname⟩

/-- Two places of a list define the same name. -/
def DefinesTwice (is : List Instruction) : Prop :=
  ∃ m n name, m < n ∧ DefinedAt is m name ∧ DefinedAt is n name

theorem nodup_labels_iff : (is.filterMap Instruction.label?).Nodup ↔ ¬DefinesTwice is := by
  rw [List.Nodup, List.pairwise_filterMap, List.pairwise_iff_getElem]
  constructor
  · rintro h ⟨m, n, name, hmn, ⟨i, hi, hname⟩, ⟨j, hj, hname'⟩⟩
    obtain ⟨hm, rfl⟩ := List.getElem?_eq_some_iff.mp hi
    obtain ⟨hn, rfl⟩ := List.getElem?_eq_some_iff.mp hj
    exact h m n hm hn hmn name (Instruction.label?_eq_some_iff.mpr hname) name
      (Instruction.label?_eq_some_iff.mpr hname') rfl
  · rintro h m n hm hn hmn name hname name' hname' rfl
    exact h ⟨m, n, name, hmn,
      ⟨_, List.getElem?_eq_getElem hm, Instruction.label?_eq_some_iff.mp hname⟩,
      ⟨_, List.getElem?_eq_getElem hn, Instruction.label?_eq_some_iff.mp hname'⟩⟩

/-! ## The first name that is defined again -/

/-- The first place of a list that defines a name which was defined before it. -/
structure FirstRepeat (is : List Instruction) (place : Nat) (name : String) : Prop where
  definedAt : DefinedAt is place name
  before : ∃ m < place, DefinedAt is m name
  first : ¬DefinesTwice (is.take place)

theorem FirstRepeat.definesTwice (h : FirstRepeat is place name) : DefinesTwice is := by
  obtain ⟨m, hm, hbefore⟩ := h.before
  exact ⟨m, place, name, hm, hbefore, h.definedAt⟩

namespace Labels

variable {t u : Labels} {e : SourceError}

theorem enter_eq_error_iff :
    t.enter i = .error e ↔
      ∃ name place, i.label? = some name ∧ t.resolve? name = some place ∧
        e = .duplicateLabel name := by
  constructor
  · intro h
    unfold enter at h
    split at h
    · rename_i name hname
      unfold define at h
      split at h
      · rename_i place hplace
        cases h
        exact ⟨name, place, hname, hplace, rfl⟩
      · cases h
    · cases h
  · rintro ⟨name, place, hname, hplace, rfl⟩
    simp only [enter, define, hname, hplace]

/-- After a list, the names that resolve are those defined in it. -/
theorem exists_resolve?_iff (h : is.foldlM enter empty = .ok u) :
    (∃ place, u.resolve? name = some place) ↔ ∃ place, DefinedAt is place name := by
  have hempty : ∀ place, empty.resolve? name ≠ some place := by
    intro place hplace
    cases hplace
  rw [exists_definedAt_iff]
  simp only [resolve?_foldlM h, hempty, false_or]
  constructor
  · rintro ⟨place, i, hi, hname, -⟩
    exact ⟨i, hi, hname⟩
  · rintro ⟨i, hi, hname⟩
    exact ⟨i.index, i, hi, hname, rfl⟩

/-- The table cannot be built exactly if a name is defined again, and the first such name is
reported. -/
theorem ofInstructions_eq_error_iff :
    ofInstructions is = .error e ↔
      ∃ place name, e = .duplicateLabel name ∧ FirstRepeat is place name := by
  -- The instructions in front of the one that fails have been entered, so they repeat no name.
  have hentered : ∀ n, (∃ u, (is.take n).foldlM enter empty = .ok u) ↔
      ¬DefinesTwice (is.take n) := by
    intro n
    have hnew : ∀ name ∈ (is.take n).filterMap Instruction.label?, empty.resolve? name = none :=
      fun _ _ => rfl
    rw [foldlM_isOk_iff, and_iff_left hnew, nodup_labels_iff]
  unfold ofInstructions
  rw [foldlM_eq_error_iff]
  constructor
  · rintro ⟨n, i, u, hi, hu, he⟩
    obtain ⟨name, old, hname, hold, rfl⟩ := enter_eq_error_iff.mp he
    obtain ⟨m, hm⟩ := (exists_resolve?_iff hu).mp ⟨old, hold⟩
    rw [definedAt_take] at hm
    exact ⟨n, name, rfl, ⟨i, hi, Instruction.label?_eq_some_iff.mp hname⟩, ⟨m, hm⟩,
      (hentered n).mp ⟨u, hu⟩⟩
  · rintro ⟨n, name, rfl, ⟨i, hi, hname⟩, ⟨m, hm⟩, hfirst⟩
    obtain ⟨u, hu⟩ := (hentered n).mpr hfirst
    obtain ⟨old, hold⟩ := (exists_resolve?_iff hu).mpr ⟨m, definedAt_take.mpr hm⟩
    exact ⟨n, i, u, hi, hu, enter_eq_error_iff.mpr
      ⟨name, old, Instruction.label?_eq_some_iff.mpr hname, hold, rfl⟩⟩

/-! ## The number of entries -/

/-- Every definition of a list makes one entry. -/
theorem size_foldlM (h : is.foldlM enter t = .ok u) :
    u.size = t.size + (is.filterMap Instruction.label?).length := by
  induction is generalizing t with
  | nil =>
    rw [List.foldlM_nil] at h
    cases h
    rfl
  | cons i is ih =>
    rw [List.foldlM_cons, bind_eq_ok] at h
    obtain ⟨v, hv, h⟩ := h
    rw [ih h]
    rcases enter_eq_ok hv with ⟨hnone, rfl⟩ | ⟨name, hname, -, rfl⟩
    · rw [List.filterMap_cons_none hnone]
    · rw [List.filterMap_cons_some hname, List.length_cons]
      unfold size
      rw [List.length_cons]
      omega

end Labels

/-! ## Programs -/

namespace Program

variable {p : Program} {e : SourceError}

theorem ofInstructions_eq_error :
    ofInstructions is = .error e ↔ Labels.ofInstructions (number is) = .error e := by
  unfold ofInstructions
  rw [bind_eq_error]
  constructor
  · rintro (h | ⟨labels, -, h⟩)
    · exact h
    · cases h
  · exact .inl

/-- Definitions are about opcodes and operands only. -/
theorem definedAt_number : DefinedAt (number is) place name ↔ DefinedAt is place name := by
  unfold DefinedAt
  simp only [getElem?_number, Option.map_eq_some_iff]
  constructor
  · rintro ⟨-, ⟨i, hi, rfl⟩, hname⟩
    exact ⟨i, hi, hname⟩
  · rintro ⟨i, hi, hname⟩
    exact ⟨_, ⟨i, hi, rfl⟩, hname⟩

theorem firstRepeat_number : FirstRepeat (number is) place name ↔ FirstRepeat is place name := by
  have hfirst : DefinesTwice ((number is).take place) ↔ DefinesTwice (is.take place) := by
    unfold DefinesTwice
    simp only [definedAt_take, definedAt_number]
  constructor
  · rintro ⟨hat, ⟨m, hm, hbefore⟩, h⟩
    exact ⟨definedAt_number.mp hat, ⟨m, hm, definedAt_number.mp hbefore⟩, mt hfirst.mpr h⟩
  · rintro ⟨hat, ⟨m, hm, hbefore⟩, h⟩
    exact ⟨definedAt_number.mpr hat, ⟨m, hm, definedAt_number.mpr hbefore⟩, mt hfirst.mp h⟩

/-- A list makes no program exactly if a name is defined again, and the first such name is
reported. -/
theorem ofInstructions_eq_error_iff :
    ofInstructions is = .error e ↔
      ∃ place name, e = .duplicateLabel name ∧ FirstRepeat is place name := by
  rw [ofInstructions_eq_error, Labels.ofInstructions_eq_error_iff]
  simp only [firstRepeat_number]

theorem size_labels (h : ofInstructions is = .ok p) :
    p.labels.size = is.countP fun i => ∃ name, i.Defines name := by
  have hsize := Labels.size_foldlM (ofInstructions_eq_ok h).2
  rw [filterMap_label?_number, List.length_filterMap_eq_countP] at hsize
  rw [hsize, show Labels.empty.size = 0 from rfl, Nat.zero_add]
  refine List.countP_congr ?_
  intro i _
  rw [Instruction.isSome_label?_iff, decide_eq_true_iff]

/-- **Exact tables.** A list of instructions makes no program exactly if two of its places define
the same name, and the error then names the first one, in the order of the list, that was defined
before. Otherwise there is a program: it has the instructions of the list with their places noted,
and its table takes a name to a place exactly if the name is defined there, with one entry for each
label that has a name. -/
theorem labels_exact (is : List Instruction) :
    ((∃ name, ofInstructions is = .error (.duplicateLabel name)) ↔ DefinesTwice is) ∧
    (∀ e, ofInstructions is = .error e ↔
      ∃ place name, e = .duplicateLabel name ∧ FirstRepeat is place name) ∧
    (¬DefinesTwice is → ∃ p, ofInstructions is = .ok p ∧
      p.size = is.length ∧
      (∀ (n : Nat) (i : Instruction), is[n]? = some i →
        p.instructions[n]? = some { i with index := n }) ∧
      (∀ name n, p.labels.resolve? name = some n ↔ DefinedAt is n name) ∧
      p.labels.size = is.countP fun i => ∃ name, i.Defines name) := by
  refine ⟨⟨?_, ?_⟩, fun e => ofInstructions_eq_error_iff, ?_⟩
  · rintro ⟨name, h⟩
    obtain ⟨n, name, -, hrepeat⟩ := ofInstructions_eq_error_iff.mp h
    exact hrepeat.definesTwice
  · intro htwice
    -- A program would define each name once, so there is none, and an error is of this kind only.
    rcases h : ofInstructions is with e | p
    · obtain ⟨place, name, rfl, -⟩ := ofInstructions_eq_error_iff.mp h
      exact ⟨name, rfl⟩
    · exact absurd htwice (nodup_labels_iff.mp ((ofInstructions_isOk_iff is).mp ⟨p, h⟩))
  · intro honce
    obtain ⟨p, h⟩ := (ofInstructions_isOk_iff is).mpr (nodup_labels_iff.mpr honce)
    refine ⟨p, h, size_ofInstructions h, ?_, ?_, size_labels h⟩
    · intro n i hi
      rw [getElem?_ofInstructions h, hi, Option.map_some]
    · intro name n
      rw [resolve?_ofInstructions h]
      simp only [Instruction.label?_eq_some_iff]
      rfl

/-- Two names that come up twice, one between the definitions of the other. -/
def nestedLabels : List Instruction :=
  [⟨.label, [.label "a"], 1, 0⟩, ⟨.label, [.label "b"], 2, 0⟩, ⟨.label, [.label "b"], 3, 0⟩,
    ⟨.label, [.label "a"], 4, 0⟩]

/-- A label instruction without a name between two with one. -/
def namelessLabel : List Instruction :=
  [⟨.label, [.label "a"], 1, 0⟩, ⟨.label, [], 2, 0⟩, ⟨.label, [.label "b"], 3, 0⟩]

/-- Of two names, the one whose second definition comes first is reported, and a label instruction
without a name makes no entry. -/
theorem labels_exact_nested :
    FirstRepeat nestedLabels 2 "b" ∧ ofInstructions nestedLabels = .error (.duplicateLabel "b") ∧
    ¬DefinesTwice namelessLabel ∧
    ∃ p, ofInstructions namelessLabel = .ok p ∧ p.labels.resolve? "b" = some 2 ∧
      p.labels.size = 2 := by
  have hrepeat : FirstRepeat nestedLabels 2 "b" := by
    refine ⟨⟨_, rfl, rfl, rfl⟩, ⟨1, by omega, ⟨_, rfl, rfl, rfl⟩⟩, ?_⟩
    rw [← nodup_labels_iff]
    decide
  have honce : ¬DefinesTwice namelessLabel := by
    rw [← nodup_labels_iff]
    decide
  obtain ⟨p, h, -, -, hresolve, hsize⟩ := (labels_exact _).2.2 honce
  refine ⟨hrepeat, ((labels_exact _).2.1 _).mpr ⟨2, "b", rfl, hrepeat⟩, honce, p, h, ?_, ?_⟩
  · exact (hresolve "b" 2).mpr ⟨_, rfl, rfl, rfl⟩
  · rw [hsize]
    decide

end Program

end FrameCode
