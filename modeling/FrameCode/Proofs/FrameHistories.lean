import FrameCode.Proofs.Comparisons
import FrameCode.Proofs.Peaks
import FrameCode.Proofs.Sites

/-!
# Frames and their histories

A frame is changed by declaring and assigning, and looked at by getting one cell or listing them
all. Here these requests are data: a list of them is a history, the first request first, and
`ofHistory` is what it makes of the empty frame. What a frame answers is then told by its history
alone. `Current history name` says what a name holds without looking at a frame: nothing before it
is declared, an unset cell from its first declaration on, and after that whatever was assigned last.
An assignment that comes before the declaration has no effect, and neither has a second declaration.

Each fact has a step lemma about one request (`contains_perform`, `get?_perform_of_some`,
`exists_current_snoc`, `size_perform`) and follows for histories by induction.
-/

namespace FrameCode.Frame

variable {f : Frame} {name : String} {x : Cell}

/-! ## Requests and answers -/

/-- What can be asked of a frame. -/
inductive Request where
  | declare (name : String)
  | get (name : String)
  | assign (name : String) (x : Cell)
  | list
deriving DecidableEq

/-- What a frame answers: whether the name is new, its cell, whether it has a cell to be changed, or
all entries. -/
inductive Answer where
  | declared (isNew : Bool)
  | got (cell : Option Cell)
  | assigned (found : Bool)
  | listed (entries : List (String × Cell))
deriving DecidableEq

def answer (f : Frame) : Request → Answer
  | .declare name => .declared (f.declare? name).isSome
  | .get name => .got (f.get? name)
  | .assign name _ => .assigned (f.contains name)
  | .list => .listed f.entries

/-- The frame after a request. -/
def perform (f : Frame) : Request → Frame
  | .declare name => (f.declare? name).getD f
  | .assign name x => f.set name x
  | .get _ | .list => f

/-- The answers to requests that are made one after the other. -/
def answers (f : Frame) : List Request → List Answer
  | [] => []
  | request :: rest => f.answer request :: (f.perform request).answers rest

/-- The frame that a history makes. -/
def ofHistory (history : List Request) : Frame :=
  history.foldl perform empty

variable {request : Request} {history : List Request}

/-- A request is answered by the frame that the ones before it have made. -/
theorem getElem?_answers (f : Frame) (before after : List Request) (request : Request) :
    (f.answers (before ++ request :: after))[before.length]? =
      some ((before.foldl perform f).answer request) := by
  induction before generalizing f with
  | nil => rfl
  | cons first before ih =>
    rw [List.cons_append, answers, List.length_cons, List.getElem?_cons_succ, ih, List.foldl_cons]

theorem ofHistory_snoc (history : List Request) (request : Request) :
    ofHistory (history ++ [request]) = (ofHistory history).perform request := by
  unfold ofHistory
  rw [List.foldl_append, List.foldl_cons, List.foldl_nil]

/-! ## Names -/

theorem contains_iff : f.contains name = true ↔ ∃ x, f.get? name = some x := by
  unfold contains
  exact Option.isSome_iff_exists

theorem get?_eq_none_iff : f.get? name = none ↔ ¬f.contains name = true := by
  unfold contains
  rw [Bool.not_eq_true, Option.isSome_eq_false_iff, Option.isNone_iff_eq_none]

theorem isSome_declare? (f : Frame) (name : String) :
    (f.declare? name).isSome = !f.contains name := by
  unfold declare?
  by_cases htaken : f.contains name = true
  · rw [if_pos htaken, htaken]
    rfl
  · rw [if_neg htaken, eq_false_of_ne_true htaken]
    rfl

/-- Declaring a name gives it an unset cell, unless it has a cell. -/
theorem get?_perform_declare (f : Frame) (name other : String) :
    (f.perform (.declare name)).get? other =
      if other = name then some ((f.get? name).getD .unset) else f.get? other := by
  rw [perform]
  by_cases htaken : f.contains name = true
  · obtain ⟨x, hx⟩ := contains_iff.mp htaken
    have hsame : f.declare? name = none := if_pos htaken
    rw [hsame, hx, Option.getD_none, Option.getD_some]
    by_cases hother : other = name
    · rw [if_pos hother, hother, hx]
    · rw [if_neg hother]
  · obtain ⟨g, hg⟩ : ∃ g, f.declare? name = some g := ⟨_, if_neg htaken⟩
    rw [hg, Option.getD_some, get?_declare? hg, get?_eq_none_iff.mpr htaken, Option.getD_none]

/-- A name is declared by one kind of request only. -/
theorem contains_perform :
    (f.perform request).contains name = true ↔
      f.contains name = true ∨ request = .declare name := by
  cases request with
  | declare other =>
    unfold contains
    rw [get?_perform_declare]
    by_cases hname : name = other
    · simp [hname]
    · have hne : other ≠ name := Ne.symm hname
      simp [hname, hne]
  | assign other y =>
    unfold perform contains
    rw [get?_set]
    by_cases hname : name = other
    · simp [hname]
    · simp [hname]
  | get _ => simp [perform]
  | list => simp [perform]

theorem contains_foldl :
    (history.foldl perform f).contains name = true ↔
      f.contains name = true ∨ .declare name ∈ history := by
  induction history generalizing f with
  | nil => simp
  | cons request rest ih =>
    rw [List.foldl_cons, ih, contains_perform, List.mem_cons, or_assoc, @eq_comm _ request]

/-- The names of a frame are those that its history declares. -/
theorem contains_ofHistory : (ofHistory history).contains name = true ↔
    .declare name ∈ history := by
  unfold ofHistory
  rw [contains_foldl]
  exact or_iff_right Bool.false_ne_true

theorem mem_names_iff : name ∈ f.names ↔ f.contains name = true := by
  unfold names
  rw [contains_iff, List.mem_map]
  simp only [get?_eq_some_iff]
  constructor
  · rintro ⟨⟨name, x⟩, hmem, rfl⟩
    exact ⟨x, hmem⟩
  · rintro ⟨x, hmem⟩
    exact ⟨(name, x), hmem, rfl⟩

/-! ## Cells -/

/-- What a name holds after a history, told by the requests alone. -/
inductive Current : List Request → String → Option Cell → Prop where
  /-- The name has not been declared. -/
  | undeclared {history : List Request} {name : String} :
      .declare name ∉ history → Current history name none
  /-- The name has been declared, and not been assigned since. -/
  | declared {before after : List Request} {name : String} :
      .declare name ∉ before → (∀ y, .assign name y ∉ after) →
        Current (before ++ .declare name :: after) name (some .unset)
  /-- The name was declared when it was assigned, and has not been assigned since. -/
  | assigned {before after : List Request} {name : String} {x : Cell} :
      .declare name ∈ before → (∀ y, .assign name y ∉ after) →
        Current (before ++ .assign name x :: after) name (some x)

/-- A cell stays as it is until it is assigned. -/
theorem get?_perform_of_some (hx : f.get? name = some x)
    (hrequest : ∀ y, request ≠ .assign name y) :
    (f.perform request).get? name = some x := by
  cases request with
  | declare other =>
    rw [get?_perform_declare]
    by_cases hname : name = other
    · subst hname
      rw [if_pos rfl, hx, Option.getD_some]
    · rw [if_neg hname, hx]
  | assign other y =>
    have hne : name ≠ other := by
      rintro rfl
      exact hrequest y rfl
    unfold perform
    rw [get?_set, if_neg hne, hx]
  | get _ => exact hx
  | list => exact hx

theorem get?_foldl_of_some (hx : f.get? name = some x) (hrest : ∀ y, .assign name y ∉ history) :
    (history.foldl perform f).get? name = some x := by
  induction history generalizing f with
  | nil => exact hx
  | cons request rest ih =>
    rw [List.foldl_cons]
    refine ih (get?_perform_of_some hx ?_) ?_
    · rintro y rfl
      exact hrest y (List.mem_cons_self ..)
    · intro y hy
      exact hrest y (List.mem_cons_of_mem _ hy)

theorem ofHistory_append_cons (before after : List Request) (request : Request) :
    ofHistory (before ++ request :: after) =
      after.foldl perform ((ofHistory before).perform request) := by
  unfold ofHistory
  rw [List.foldl_append, List.foldl_cons]

/-- A frame holds what its history says. -/
theorem get?_of_current {c : Option Cell} (h : Current history name c) :
    (ofHistory history).get? name = c := by
  cases h with
  | undeclared hnot =>
    rw [← contains_ofHistory] at hnot
    exact get?_eq_none_iff.mpr hnot
  | declared hnew hrest =>
    rw [← contains_ofHistory] at hnew
    rw [ofHistory_append_cons]
    refine get?_foldl_of_some ?_ hrest
    rw [get?_perform_declare, if_pos rfl, get?_eq_none_iff.mpr hnew, Option.getD_none]
  | assigned hdeclared hrest =>
    rw [← contains_ofHistory] at hdeclared
    obtain ⟨old, hold⟩ := contains_iff.mp hdeclared
    rw [ofHistory_append_cons]
    refine get?_foldl_of_some ?_ hrest
    unfold perform
    rw [get?_set, if_pos rfl, hold, Option.map_some]

theorem not_assign_snoc {after : List Request} (hrequest : ∀ y, request ≠ .assign name y)
    (hafter : ∀ y, .assign name y ∉ after) (y : Cell) : .assign name y ∉ after ++ [request] := by
  intro hmem
  rcases List.mem_append.mp hmem with hmem | hmem
  · exact hafter y hmem
  · exact hrequest y (List.mem_singleton.mp hmem).symm

/-- One request more leaves a name with something that the history says. -/
theorem exists_current_snoc {c : Option Cell} (h : Current history name c) (request : Request) :
    ∃ c, Current (history ++ [request]) name c := by
  -- An assignment to the name is the last one if it counts, and any other request is one that came
  -- after what the history says already.
  by_cases hassign : ∃ y, request = .assign name y
  · obtain ⟨y, rfl⟩ := hassign
    by_cases hdeclared : .declare name ∈ history
    · exact ⟨some y, .assigned hdeclared fun _ => List.not_mem_nil⟩
    · refine ⟨none, .undeclared ?_⟩
      simpa using hdeclared
  · have hrequest : ∀ y, request ≠ .assign name y := fun y hy => hassign ⟨y, hy⟩
    cases h with
    | undeclared hnot =>
      by_cases hdeclare : request = .declare name
      · subst hdeclare
        exact ⟨some .unset, .declared hnot fun _ => List.not_mem_nil⟩
      · refine ⟨none, .undeclared ?_⟩
        simpa [hnot] using Ne.symm hdeclare
    | declared hnew hrest =>
      rw [List.append_assoc, List.cons_append]
      exact ⟨some .unset, .declared hnew (not_assign_snoc hrequest hrest)⟩
    | assigned hdeclared hrest =>
      rw [List.append_assoc, List.cons_append]
      exact ⟨_, .assigned hdeclared (not_assign_snoc hrequest hrest)⟩

theorem exists_current (history : List Request) (name : String) :
    ∃ c, Current history name c := by
  induction history using List.reverseRecOn with
  | nil => exact ⟨none, .undeclared List.not_mem_nil⟩
  | append_singleton history request ih =>
    obtain ⟨c, hc⟩ := ih
    exact exists_current_snoc hc request

/-- What a frame holds and what its history says is the same. -/
theorem get?_ofHistory_iff {c : Option Cell} :
    (ofHistory history).get? name = c ↔ Current history name c := by
  constructor
  · -- The history says something, and by the other direction it can only be this.
    rintro rfl
    obtain ⟨c, hc⟩ := exists_current history name
    rwa [get?_of_current hc]
  · exact get?_of_current

/-! ## The number of names -/

theorem size_perform (f : Frame) (request : Request) :
    (f.perform request).size = f.size + if f.answer request = .declared true then 1 else 0 := by
  cases request with
  | declare name =>
    rw [perform, answer]
    rcases h : f.declare? name with - | g
    · simp
    · have hsize : g.size = f.size + 1 := (entries_declare? h).1.length_eq
      simp [hsize]
  | assign name x =>
    rw [if_neg (by simp [answer])]
    exact size_set f name x
  | get _ => simp [perform, answer]
  | list => simp [perform, answer]

/-- A frame grows by the declarations that found a new name. -/
theorem size_foldl (f : Frame) (history : List Request) :
    (history.foldl perform f).size = f.size + (f.answers history).count (.declared true) := by
  induction history generalizing f with
  | nil => rfl
  | cons request rest ih =>
    rw [List.foldl_cons, ih, size_perform, answers, List.count_cons]
    simp only [beq_iff_eq]
    omega

/-! ## Ordered maps -/

/-- Assigning to a name that is not declared changes nothing. -/
theorem set_of_not_contains (h : ¬f.contains name = true) (x : Cell) : f.set name x = f := by
  have hentries : replace name x f.entries = f.entries := by
    unfold replace
    conv_rhs => rw [← List.map_id f.entries]
    apply List.map_congr_left
    intro e he
    have hne : ¬(e.1 == name) = true := by
      rw [beq_iff_eq]
      exact ne_of_not_contains h e he
    rw [if_neg hne, id]
  unfold set
  simp only [hentries]

theorem nodup_names (f : Frame) : f.names.Nodup := by
  unfold names
  refine List.pairwise_map.mpr (f.ascending.imp ?_)
  intro a b hlt heq
  rw [heq] at hlt
  exact String.lt_irrefl _ hlt

/-- **Frames are ordered maps.** A request is answered by the frame that the requests before it
have made, whatever follows. A declaration answers whether the name is new and leaves every cell
that is there alone; an assignment fails and changes nothing if the name is not declared; getting a
name gives what the history says it holds. Listing gives the declared names once each, in the order
of the codes of their characters, with what they hold, and their number is that of the declarations
that found a new name. -/
theorem answers_exact (history : List Request) :
    (∀ request rest, (empty.answers (history ++ request :: rest))[history.length]? =
      some ((ofHistory history).answer request)) ∧
    (∀ name, (ofHistory history).answer (.declare name) =
        .declared (decide (.declare name ∉ history)) ∧
      ∀ other x, (ofHistory history).get? other = some x →
        (ofHistory (history ++ [.declare name])).get? other = some x) ∧
    (∀ name x, (ofHistory history).answer (.assign name x) =
        .assigned (decide (.declare name ∈ history)) ∧
      (.declare name ∉ history →
        ofHistory (history ++ [.assign name x]) = ofHistory history)) ∧
    (∀ name c, (ofHistory history).answer (.get name) = .got c ↔ Current history name c) ∧
    (∃ entries, (ofHistory history).answer .list = .listed entries ∧
      (entries.map Prod.fst).Nodup ∧
      (∀ name, name ∈ entries.map Prod.fst ↔ .declare name ∈ history) ∧
      (∀ name x, (name, x) ∈ entries ↔ Current history name (some x)) ∧
      entries.Pairwise (fun a b =>
        List.Lex (· < ·) (a.1.toList.map Char.toNat) (b.1.toList.map Char.toNat)) ∧
      (ofHistory history).size = entries.length) ∧
    (ofHistory history).size = (empty.answers history).count (.declared true) := by
  have hcontains : ∀ name, (ofHistory history).contains name =
      decide (.declare name ∈ history) := by
    intro name
    rw [Bool.eq_iff_iff, contains_ofHistory, decide_eq_true_iff]
  refine ⟨?_, ?_, ?_, ?_, ⟨(ofHistory history).entries, rfl, nodup_names _, ?_, ?_, ?_, rfl⟩, ?_⟩
  · intro request rest
    exact getElem?_answers empty history rest request
  · intro name
    refine ⟨?_, ?_⟩
    · rw [answer, isSome_declare?, hcontains, decide_not]
    · intro other x hx
      rw [ofHistory_snoc]
      exact get?_perform_of_some hx fun y hy => by cases hy
  · intro name x
    refine ⟨?_, ?_⟩
    · rw [answer, hcontains]
    · intro hnot
      rw [ofHistory_snoc]
      exact set_of_not_contains (mt contains_ofHistory.mp hnot) x
  · intro name c
    rw [answer, Answer.got.injEq, get?_ofHistory_iff]
  · intro name
    rw [← contains_ofHistory]
    exact mem_names_iff
  · intro name x
    rw [← get?_eq_some_iff, get?_ofHistory_iff]
  · refine (ofHistory history).ascending.imp ?_
    intro a b hlt
    exact (Operator.lt_iff_lex_codes a.1 b.1).mp hlt
  · unfold ofHistory
    rw [size_foldl]
    exact Nat.zero_add _

/-- A name is assigned too early, declared after another one, assigned and declared again. -/
def redeclared : List Request :=
  [.assign "b" (.holding (.bool true)), .declare "ž", .declare "b", .assign "b" (.holding .nil),
    .declare "b"]

/-- Only the assignment between the two declarations counts, and one to a name that is not declared
changes nothing. -/
theorem answers_exact_redeclared :
    Current redeclared "b" (some (.holding .nil)) ∧
    (ofHistory redeclared).answer (.get "b") = .got (some (.holding .nil)) ∧
    .declare "c" ∉ redeclared ∧
    ofHistory (redeclared ++ [.assign "c" .unset]) = ofHistory redeclared := by
  have hcurrent : Current redeclared "b" (some (.holding .nil)) :=
    @Current.assigned (redeclared.take 3) [.declare "b"] "b" (.holding .nil) (by decide) (by simp)
  have hnot : .declare "c" ∉ redeclared := by decide
  refine ⟨hcurrent, ?_, hnot, ?_⟩
  · exact ((answers_exact _).2.2.2.1 "b" _).mpr hcurrent
  · exact ((answers_exact _).2.2.1 "c" _).2 hnot

end FrameCode.Frame
