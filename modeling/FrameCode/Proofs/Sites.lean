import FrameCode.Proofs.Frames
import FrameCode.Proofs.Renaming

/-!
# Frames and cells by their sites

A variable is named by a kind of frame, and the frame that a kind stands for changes while a program
runs: `LF@x` is another cell after a frame was pushed. To say that an instruction leaves a cell
alone one has to name the cell itself. A **site** is a place where a memory keeps a frame, and a
site with a name is one cell, in reach or not.

Every change of a memory is told here by what is found at its sites. A store changes one cell at one
site (`cellAt?_store`), and declaring adds one cell at one site (`declares_declare`).
-/

namespace FrameCode

/-- Where a memory keeps a frame. The frames of the stack are counted from its top. -/
inductive Site where
  | globals
  | stacked (depth : Nat)
  | temporary
deriving DecidableEq

/-- The site at which the frame of a kind is found. -/
def FrameName.site : FrameName → Site
  | .global => .globals
  | .topLocal => .stacked 0
  | .temporary => .temporary

/-- The site of the frame in which a variable lives. -/
def Variable.site (v : Variable) : Site :=
  v.frame.site

/-! ## Names and cells of one frame -/

namespace Frame

variable {f g : Frame} {name other : String}

/-- The names that are declared, in ascending order. -/
def names (f : Frame) : List String :=
  f.entries.map Prod.fst

/-- Assigning declares nothing and removes nothing. -/
theorem names_set (f : Frame) (name : String) (x : Cell) : (f.set name x).names = f.names := by
  unfold names set replace
  rw [List.map_map]
  apply List.map_congr_left
  intro e _
  exact fst_replaced name x e

theorem entries_declare? (h : f.declare? name = some g) :
    g.entries.Perm ((name, .unset) :: f.entries) ∧ name ∉ f.names := by
  unfold declare? at h
  by_cases htaken : f.contains name = true
  · rw [if_pos htaken] at h
    cases h
  · rw [if_neg htaken] at h
    cases h
    have hnew := ne_of_not_contains htaken
    refine ⟨perm_insertNew hnew, ?_⟩
    intro hmem
    obtain ⟨e, he, hname⟩ := List.mem_map.mp hmem
    exact hnew e he hname

/-- A declared name is one more, and its cell is unset. -/
theorem get?_declare? (h : f.declare? name = some g) (other : String) :
    g.get? other = if other = name then some .unset else f.get? other := by
  obtain ⟨hperm, hnew⟩ := entries_declare? h
  apply Option.ext
  intro x
  rw [get?_eq_some_iff, hperm.mem_iff, List.mem_cons]
  by_cases hother : other = name
  · rw [if_pos hother, Option.some.injEq, hother]
    constructor
    · rintro (heq | hmem)
      · exact (Prod.mk.inj heq).2.symm
      · -- The name was not there before.
        exact absurd (List.mem_map_of_mem hmem) hnew
    · rintro rfl
      exact .inl rfl
  · rw [if_neg hother, get?_eq_some_iff]
    constructor
    · rintro (heq | hmem)
      · exact absurd (Prod.mk.inj heq).1 hother
      · exact hmem
    · intro hmem
      exact .inr hmem

end Frame

/-! ## Looking at a site -/

namespace Memory

variable {m : Memory} {v : Variable} {kind : FrameName} {site : Site} {name : String} {x : Cell}

/-- The frame at a site, if there is one. -/
def frameAt? (m : Memory) : Site → Option Frame
  | .globals => some m.globals
  | .stacked depth => m.locals[depth]?
  | .temporary => m.temporary

/-- The cell of a name at a site, if the name is declared there. -/
def cellAt? (m : Memory) (site : Site) (name : String) : Option Cell :=
  (m.frameAt? site).bind (·.get? name)

theorem frameAt?_site (m : Memory) (kind : FrameName) : m.frameAt? kind.site = m.frame? kind := by
  cases kind with
  | global => rfl
  | topLocal => exact List.head?_eq_getElem?.symm
  | temporary => rfl

/-- The cell of a variable is the one of its name at its site. -/
theorem cell_eq_ok_iff : m.cell v = .ok x ↔ m.cellAt? v.site v.name = some x := by
  unfold cell frame cellAt? Variable.site
  rw [frameAt?_site]
  rcases m.frame? v.frame with _ | f
  · simp
  · rcases hget : f.get? v.name with _ | y
    · simp [hget]
    · simp [hget]

/-! ## Changing a frame in reach -/

/-- A change of the frame of a kind is seen at the site of the kind and at no other. -/
theorem frameAt?_mapFrame (m : Memory) (kind : FrameName) (change : Frame → Frame) (site : Site) :
    (m.mapFrame kind change).frameAt? site =
      if site = kind.site then (m.frameAt? site).map change else m.frameAt? site := by
  by_cases hsite : site = kind.site
  · rw [if_pos hsite, hsite, frameAt?_site, frameAt?_site, frame?_mapFrame]
  · rw [if_neg hsite]
    cases kind with
    | global =>
      cases site with
      | globals => exact absurd rfl hsite
      | stacked depth => rfl
      | temporary => rfl
    | temporary =>
      cases site with
      | globals => rfl
      | stacked depth => rfl
      | temporary => exact absurd rfl hsite
    | topLocal =>
      cases site with
      | globals => rfl
      | temporary => rfl
      | stacked depth =>
        -- Below the top the stack is as it was.
        have hdepth : depth ≠ 0 := by
          rintro rfl
          exact hsite rfl
        obtain ⟨k, rfl⟩ := Nat.exists_eq_succ_of_ne_zero hdepth
        show (m.locals.modifyHead change)[k + 1]? = m.locals[k + 1]?
        rcases m.locals with _ | ⟨f, rest⟩
        · rfl
        · rfl

/-- A store changes the cell of the variable, if it is declared, and no other. -/
theorem cellAt?_store (m : Memory) (v : Variable) (x : Cell) (site : Site) (name : String) :
    (m.store v x).cellAt? site name =
      if site = v.site ∧ name = v.name then (m.cellAt? site name).map fun _ => x
      else m.cellAt? site name := by
  unfold store cellAt? Variable.site
  rw [frameAt?_mapFrame]
  by_cases hsite : site = v.frame.site
  · rw [if_pos hsite]
    rcases m.frameAt? site with _ | f
    · simp
    · rw [Option.map_some, Option.bind_some, Option.bind_some, Frame.get?_set]
      by_cases hname : name = v.name
      · rw [if_pos hname, if_pos ⟨hsite, hname⟩, hname]
      · rw [if_neg hname, if_neg fun h => hname h.2]
  · rw [if_neg hsite, if_neg fun h => hsite h.1]

/-- A store leaves the names of every frame as they were. -/
theorem names_store (m : Memory) (v : Variable) (x : Cell) (site : Site) :
    ((m.store v x).frameAt? site).map Frame.names = (m.frameAt? site).map Frame.names := by
  unfold store
  rw [frameAt?_mapFrame]
  by_cases hsite : site = v.frame.site
  · rw [if_pos hsite, Option.map_map]
    congr 1
    funext f
    exact f.names_set v.name x
  · rw [if_neg hsite]

/-- **One cell more.** The second memory differs from the first one in the frame of a variable,
which had no such name and has it now, with a cell that is unset. -/
structure Declares (m : Memory) (v : Variable) (m' : Memory) : Prop where
  names : ∃ f g, m.frameAt? v.site = some f ∧ m'.frameAt? v.site = some g ∧
    g.names.Perm (v.name :: f.names)
  undeclared : m.cellAt? v.site v.name = none
  unset : m'.cellAt? v.site v.name = some .unset
  cells : ∀ site name, ¬(site = v.site ∧ name = v.name) → m'.cellAt? site name = m.cellAt? site name
  frames : ∀ site, site ≠ v.site → m'.frameAt? site = m.frameAt? site

/-- Declaring a new name in a frame that exists adds one cell. -/
theorem declares_declare {f : Frame} (hf : m.frame? v.frame = some f)
    (hnew : f.contains v.name = false) : m.Declares v (m.declare v) := by
  rw [← frameAt?_site] at hf
  obtain ⟨g, hg⟩ : ∃ g, f.declare? v.name = some g := by simp [Frame.declare?, hnew]
  have hother : ∀ site, site ≠ v.site → (m.declare v).frameAt? site = m.frameAt? site := by
    intro site hsite
    unfold declare
    rw [frameAt?_mapFrame]
    exact if_neg hsite
  have hhere : (m.declare v).frameAt? v.site = some g := by
    unfold declare Variable.site
    rw [frameAt?_mapFrame, if_pos rfl, hf, Option.map_some, hg, Option.getD_some]
  have hget := Frame.get?_declare? hg
  refine ⟨⟨f, g, hf, hhere, (Frame.entries_declare? hg).1.map Prod.fst⟩, ?_, ?_, ?_, hother⟩
  · rw [cellAt?, Variable.site, hf, Option.bind_some]
    rwa [Frame.contains, Option.isSome_eq_false_iff, Option.isNone_iff_eq_none] at hnew
  · rw [cellAt?, hhere, Option.bind_some, hget, if_pos rfl]
  · intro site name hne
    unfold cellAt?
    by_cases hsite : site = v.site
    · have hname : name ≠ v.name := fun h => hne ⟨hsite, h⟩
      rw [hsite, hhere, Variable.site, hf, Option.bind_some, Option.bind_some, hget, if_neg hname]
    · rw [hother site hsite]

end Memory

end FrameCode
