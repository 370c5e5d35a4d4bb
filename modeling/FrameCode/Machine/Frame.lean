import FrameCode.Language.Value

/-!
# Frames

A frame holds the variables of one scope: names with their cells, in ascending order of the names by
code point. The order is part of the type, so a frame is determined by what its names hold, and
listing it needs no sorting.
-/

namespace FrameCode

/-- Variables in ascending order of their names. -/
structure Frame where
  entries : List (String × Cell)
  ascending : entries.Pairwise fun a b => a.1 < b.1
deriving DecidableEq

namespace Frame

/-- The frame without variables. -/
def empty : Frame := ⟨[], .nil⟩

instance : Inhabited Frame := ⟨empty⟩

/-- The cell of a variable, if it is declared. -/
def get? (f : Frame) (name : String) : Option Cell :=
  f.entries.lookup name

def contains (f : Frame) (name : String) : Bool :=
  (f.get? name).isSome

/-- The number of variables. -/
def size (f : Frame) : Nat :=
  f.entries.length

/-! ## Declaring -/

/-- A new name at its place among ascending names; a name that is there already is left alone. -/
def insertNew (name : String) (x : Cell) : List (String × Cell) → List (String × Cell)
  | [] => [(name, x)]
  | (k, y) :: rest =>
    if name < k then (name, x) :: (k, y) :: rest
    else if k < name then (k, y) :: insertNew name x rest
    else (k, y) :: rest

theorem mem_insertNew {name : String} {x : Cell} {l : List (String × Cell)} {e : String × Cell}
    (h : e ∈ insertNew name x l) : e = (name, x) ∨ e ∈ l := by
  induction l with
  | nil => simpa [insertNew] using h
  | cons head rest ih =>
    obtain ⟨k, y⟩ := head
    simp only [insertNew] at h
    split at h
    · simpa using h
    · split at h
      · rcases List.mem_cons.1 h with rfl | h
        · exact .inr (List.mem_cons_self ..)
        · rcases ih h with rfl | h
          · exact .inl rfl
          · exact .inr (List.mem_cons_of_mem _ h)
      · exact .inr h

theorem pairwise_insertNew (name : String) (x : Cell) {l : List (String × Cell)}
    (h : l.Pairwise fun a b => a.1 < b.1) :
    (insertNew name x l).Pairwise fun a b => a.1 < b.1 := by
  induction l with
  | nil => simp [insertNew]
  | cons head rest ih =>
    obtain ⟨k, y⟩ := head
    have ⟨hk, hrest⟩ := List.pairwise_cons.1 h
    simp only [insertNew]
    split
    · rename_i hlt
      refine List.pairwise_cons.2 ⟨fun e he => ?_, h⟩
      rcases List.mem_cons.1 he with rfl | he
      · exact hlt
      · exact String.lt_trans hlt (hk e he)
    · split
      · rename_i hgt
        refine List.pairwise_cons.2 ⟨fun e he => ?_, ih hrest⟩
        rcases mem_insertNew he with rfl | he
        · exact hgt
        · exact hk e he
      · exact h

/-- The frame with one more variable, not yet initialized; `none` if the name is taken. -/
def declare? (f : Frame) (name : String) : Option Frame :=
  if f.contains name then none
  else some ⟨insertNew name .unset f.entries, pairwise_insertNew _ _ f.ascending⟩

/-! ## Assigning -/

/-- The entries with another cell at one name. -/
def replace (name : String) (x : Cell) (l : List (String × Cell)) : List (String × Cell) :=
  l.map fun e => if e.1 == name then (e.1, x) else e

theorem fst_replaced (name : String) (x : Cell) (e : String × Cell) :
    (if e.1 == name then (e.1, x) else e).1 = e.1 := by
  split <;> rfl

theorem pairwise_replace (name : String) (x : Cell) {l : List (String × Cell)}
    (h : l.Pairwise fun a b => a.1 < b.1) :
    (replace name x l).Pairwise fun a b => a.1 < b.1 := by
  refine List.pairwise_map.2 (h.imp fun {a b} hab => ?_)
  rw [fst_replaced, fst_replaced]
  exact hab

/-- The frame with another cell for a variable; a name that is not declared is left undeclared. -/
def set (f : Frame) (name : String) (x : Cell) : Frame :=
  ⟨replace name x f.entries, pairwise_replace name x f.ascending⟩

end Frame

end FrameCode
