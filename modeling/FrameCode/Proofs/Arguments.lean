import FrameCode.Proofs.Loading
import FrameCode.Proofs.OperandGrammar
import Mathlib.Data.List.Nodup
import Mathlib.Data.List.Perm.Subperm

/-!
# Arguments in any arrangement

The operands of an instruction are read from elements that name their positions, and they may stand
in any arrangement. Reading goes through the elements once and fills one position for each of them.
`Fills` says what it comes to, without going through the list again: no position is named twice,
each element fills the position it names, and the other positions are as they were.

An opcode with `n` operands asks for `n` elements. As no position is named twice, the names are
those of all the positions (`arguments_eq_ok_iff`), and the step that would leave out empty
positions leaves out none. Which arrangement the elements stand in is not part of `Arranged`, so it
has no say in the operands (`arguments_any_arrangement`).
-/

namespace FrameCode.Source

open FrameCode.Checks FrameCode.Document FrameCode.Text

variable {order arity n : Nat} {op : Opcode} {e : Element} {es : List Element} {a : Operand}
  {args : List Operand} {found found' : List (Option Operand)}

/-! ## The names of positions -/

theorem argumentTag_inj {m n : Nat} (h : argumentTag m = argumentTag n) : m = n := by
  unfold argumentTag at h
  have hrepr : (m + 1).repr = (n + 1).repr := by simpa using h
  have hsucc := eq_of_repr hrepr
  omega

theorem position?_eq_some_iff {tag : String} :
    position? arity tag = some n ↔ n < arity ∧ tag = argumentTag n := by
  unfold position?
  constructor
  · intro h
    have htag : argumentTag n = tag := by simpa using List.find?_some h
    exact ⟨lt_of_position? h, htag.symm⟩
  · rintro ⟨hlt, rfl⟩
    -- Some position is found, and it is `n` because no other one has the same name.
    rcases hfind : (List.range arity).find? fun m => argumentTag m == argumentTag n with _ | m
    · have hnone := List.find?_eq_none.mp hfind n (List.mem_range.mpr hlt)
      simp at hnone
    · have htag : argumentTag m = argumentTag n := by simpa using List.find?_some hfind
      rw [argumentTag_inj htag]

/-! ## One element -/

/-- An element holds an operand: its type names a kind of operands, and its text without surrounding
blanks denotes an operand of this kind, by the grammar of the kind. -/
def HoldsOperand (e : Element) (a : Operand) : Prop :=
  ∃ kind : Argument.Kind, e.attribute? "type" = some kind.text ∧
    Argument.Written kind (trimmed e.leadingText) a

theorem required_eq_ok_iff {name value : String} :
    required e name = .ok value ↔ e.attribute? name = some value := by
  unfold required
  split
  · rename_i value' h
    simp [h]
  · rename_i h
    simp [h]

theorem operand_eq_ok_iff {kind text : String} :
    Argument.operand order kind text = .ok a ↔
      ∃ k, Argument.Kind.ofText? kind = some k ∧ Argument.operand? k text = some a := by
  unfold Argument.operand
  split
  · rename_i h
    simp [h]
  · rename_i k h
    rw [h]
    split
    · rename_i a' ha
      simp [ha]
    · rename_i ha
      simp [ha]

theorem holdsOperand_iff (order : Nat) :
    HoldsOperand e a ↔ ∃ type, e.attribute? "type" = some type ∧
      Argument.operand order type (trimmed e.leadingText) = .ok a := by
  simp only [HoldsOperand, operand_eq_ok_iff, Argument.Kind.ofText?_eq_some_iff,
    Argument.operand?_eq_some_iff]
  constructor
  · rintro ⟨kind, htype, ha⟩
    exact ⟨kind.text, htype, kind, rfl, ha⟩
  · rintro ⟨_, htype, kind, rfl, ha⟩
    exact ⟨kind, htype, ha⟩

theorem argument_eq_ok_iff : argument order e = .ok a ↔ HoldsOperand e a := by
  rw [holdsOperand_iff order]
  unfold argument
  simp only [bind_eq_ok, required_eq_ok_iff]

theorem fill_eq_ok_iff (hlen : found.length = arity) :
    fill order arity found e = .ok found' ↔
      ∃ n a, n < arity ∧ e.tag = argumentTag n ∧ found[n]? = some none ∧ HoldsOperand e a ∧
        found' = found.set n (some a) := by
  constructor
  · intro h
    obtain ⟨n, a, hn, hfree, ha, rfl⟩ := fill_eq_ok h
    obtain ⟨hlt, htag⟩ := position?_eq_some_iff.mp hn
    have hnone : found[n]? = some none := by
      rw [List.getElem?_eq_getElem (by omega)] at hfree ⊢
      simpa using hfree
    exact ⟨n, a, hlt, htag, hnone, argument_eq_ok_iff.mp ha, rfl⟩
  · rintro ⟨n, a, hlt, htag, hnone, ha, rfl⟩
    have hn := position?_eq_some_iff.mpr ⟨hlt, htag⟩
    unfold fill
    simp [hn, hnone, argument_eq_ok_iff.mpr ha]

/-! ## All elements -/

/-- What filling positions from elements comes to. -/
structure Fills (arity : Nat) (found : List (Option Operand)) (es : List Element)
    (found' : List (Option Operand)) : Prop where
  nodup : (es.map Element.tag).Nodup
  filled : ∀ e ∈ es, ∃ n a, n < arity ∧ e.tag = argumentTag n ∧ found[n]? = some none ∧
    HoldsOperand e a ∧ found'[n]? = some (some a)
  kept : ∀ n, argumentTag n ∉ es.map Element.tag → found'[n]? = found[n]?

theorem fills_nil : Fills arity found [] found' ↔ found' = found := by
  constructor
  · intro h
    refine List.ext_getElem? ?_
    intro n
    exact h.kept n (by simp)
  · rintro rfl
    exact ⟨by simp, by simp, fun _ _ => rfl⟩

/-- Filling from one element more. The position it names was empty and stays filled, so no later
element names it. -/
theorem fills_cons :
    Fills arity found (e :: es) found' ↔
      ∃ n a, n < arity ∧ e.tag = argumentTag n ∧ found[n]? = some none ∧ HoldsOperand e a ∧
        Fills arity (found.set n (some a)) es found' := by
  constructor
  · intro h
    obtain ⟨n, a, hlt, htag, hnone, ha, hn⟩ := h.filled e (List.mem_cons_self ..)
    obtain ⟨hnew, hnodup⟩ := List.nodup_cons.mp h.nodup
    have hnlt : n < found.length := (List.getElem?_eq_some_iff.mp hnone).1
    refine ⟨n, a, hlt, htag, hnone, ha, hnodup, ?_, ?_⟩
    · intro e' he'
      obtain ⟨m, b, hm, hmtag, hmnone, hb, hmb⟩ := h.filled e' (List.mem_cons_of_mem _ he')
      -- The names are distinct, so what is filled first is not in the way of what comes later.
      have hne : n ≠ m := by
        rintro rfl
        exact hnew (by rw [htag, ← hmtag]; exact List.mem_map_of_mem he')
      exact ⟨m, b, hm, hmtag, by rw [List.getElem?_set_ne hne, hmnone], hb, hmb⟩
    · intro m hm
      by_cases hmn : n = m
      · subst hmn
        rw [hn, List.getElem?_set_self hnlt]
      · have hmtag : argumentTag m ≠ e.tag := by
          intro h
          rw [htag] at h
          exact hmn (argumentTag_inj h).symm
        rw [List.getElem?_set_ne hmn]
        exact h.kept m (by simp [hmtag, hm])
  · rintro ⟨n, a, hlt, htag, hnone, ha, h⟩
    have hnlt : n < found.length := (List.getElem?_eq_some_iff.mp hnone).1
    have hself : (found.set n (some a))[n]? = some (some a) := List.getElem?_set_self hnlt
    -- A later element finds its position empty, and the position `n` is not.
    have hother : ∀ e' ∈ es, ∀ m, e'.tag = argumentTag m → n ≠ m := by
      rintro e' he' m hmtag rfl
      obtain ⟨k, b, -, hktag, hknone, -⟩ := h.filled e' he'
      rw [← argumentTag_inj (hmtag.symm.trans hktag), hself] at hknone
      simp at hknone
    have hnew : argumentTag n ∉ es.map Element.tag := by
      intro hmem
      obtain ⟨e', he', htag'⟩ := List.mem_map.mp hmem
      exact hother e' he' n htag' rfl
    refine ⟨?_, ?_, ?_⟩
    · rw [List.map_cons, List.nodup_cons, htag]
      exact ⟨hnew, h.nodup⟩
    · intro e' he'
      rcases List.mem_cons.mp he' with rfl | he'
      · exact ⟨n, a, hlt, htag, hnone, ha, by rw [h.kept n hnew, hself]⟩
      · obtain ⟨m, b, hm, hmtag, hmnone, hb, hmb⟩ := h.filled e' he'
        rw [List.getElem?_set_ne (hother e' he' m hmtag)] at hmnone
        exact ⟨m, b, hm, hmtag, hmnone, hb, hmb⟩
    · intro m hm
      have hmn : n ≠ m := by
        rintro rfl
        exact hm (by simp [htag])
      rw [h.kept m (by simp only [List.map_cons, List.mem_cons, not_or] at hm; exact hm.2),
        List.getElem?_set_ne hmn]

/-- Filling succeeds exactly with what it comes to. The induction is on the elements, and the
positions may be partly filled before. -/
theorem foldlM_fill_iff (hlen : found.length = arity) :
    es.foldlM (fill order arity) found = .ok found' ↔ Fills arity found es found' := by
  induction es generalizing found with
  | nil =>
    rw [List.foldlM_nil, fills_nil, pure_eq, Except.ok.injEq, eq_comm]
  | cons e es ih =>
    rw [List.foldlM_cons, bind_eq_ok, fills_cons]
    constructor
    · rintro ⟨after, hfill, hrest⟩
      obtain ⟨n, a, hlt, htag, hnone, ha, rfl⟩ := (fill_eq_ok_iff hlen).mp hfill
      exact ⟨n, a, hlt, htag, hnone, ha, (ih (by rw [List.length_set, hlen])).mp hrest⟩
    · rintro ⟨n, a, hlt, htag, hnone, ha, hrest⟩
      refine ⟨_, (fill_eq_ok_iff hlen).mpr ⟨n, a, hlt, htag, hnone, ha, rfl⟩, ?_⟩
      exact (ih (by rw [List.length_set, hlen])).mpr hrest

/-! ## The arguments of an instruction -/

/-- Elements give the operands of an opcode: their names are those of its positions, each once and
in any arrangement, and each element holds the operand at the position it names. -/
structure Arranged (arity : Nat) (es : List Element) (args : List Operand) : Prop where
  tags : (es.map Element.tag).Perm ((List.range arity).map argumentTag)
  count : args.length = arity
  operands : ∀ e ∈ es, ∀ n, e.tag = argumentTag n → ∃ a, args[n]? = some a ∧ HoldsOperand e a

theorem Arranged.length (h : Arranged arity es args) : es.length = arity := by
  have hlen := h.tags.length_eq
  simpa using hlen

theorem mem_tags {m : Nat} (h : (es.map Element.tag).Perm ((List.range arity).map argumentTag)) :
    argumentTag m ∈ es.map Element.tag ↔ m < arity := by
  rw [h.mem_iff, List.mem_map]
  constructor
  · rintro ⟨k, hk, htag⟩
    rw [← argumentTag_inj htag]
    exact List.mem_range.mp hk
  · intro hlt
    exact ⟨m, List.mem_range.mpr hlt, rfl⟩

/-- As many names as positions, all of them names of positions and none there twice, are the names
of all positions. -/
theorem Fills.tags (h : Fills arity found es found') (hlen : es.length = arity) :
    (es.map Element.tag).Perm ((List.range arity).map argumentTag) := by
  have hsub : es.map Element.tag ⊆ (List.range arity).map argumentTag := by
    intro tag htag
    obtain ⟨e, he, rfl⟩ := List.mem_map.mp htag
    obtain ⟨n, a, hlt, hn, -⟩ := h.filled e he
    exact List.mem_map.mpr ⟨n, List.mem_range.mpr hlt, hn.symm⟩
  exact (h.nodup.subperm hsub).perm_of_length_le (by simp [hlen])

theorem map_some_filterMap_id {α : Type} {l : List (Option α)} (h : ∀ x ∈ l, x ≠ none) :
    (l.filterMap id).map some = l := by
  induction l with
  | nil => rfl
  | cons x l ih =>
    cases x with
    | none => exact absurd rfl (h none (List.mem_cons_self ..))
    | some y =>
      have hl := ih fun x hx => h x (List.mem_cons_of_mem _ hx)
      rw [List.filterMap_cons_some (id_eq _), List.map_cons, hl]

/-- No position is left empty. -/
theorem Fills.eq_map_some (h : Fills arity (List.replicate arity none) es found')
    (hlen : es.length = arity) : (found'.filterMap id).map some = found' := by
  refine map_some_filterMap_id ?_
  rintro x hx rfl
  obtain ⟨n, hn⟩ := List.mem_iff_getElem?.mp hx
  by_cases hmem : argumentTag n ∈ es.map Element.tag
  · obtain ⟨e, he, htag⟩ := List.mem_map.mp hmem
    obtain ⟨m, a, -, hm, -, -, hma⟩ := h.filled e he
    rw [argumentTag_inj (htag.symm.trans hm), hma] at hn
    simp at hn
  · have hge : ¬n < arity := fun hlt => hmem ((mem_tags (h.tags hlen)).mpr hlt)
    rw [h.kept n hmem, List.getElem?_replicate, if_neg hge] at hn
    cases hn

theorem arranged_of_arguments (h : arguments order op e = .ok args) :
    Arranged op.arity e.children args := by
  have hcount := length_arguments h
  unfold arguments at h
  dsimp only at h
  split at h
  · cases h
  · rename_i hlen
    have hlen : e.children.length = op.arity := Decidable.not_not.mp hlen
    obtain ⟨found, hfound, h⟩ := bind_eq_ok.mp h
    cases h
    have hfills := (foldlM_fill_iff (List.length_replicate ..)).mp hfound
    refine ⟨hfills.tags hlen, hcount, ?_⟩
    intro c hc n htag
    obtain ⟨m, a, -, hm, -, ha, hma⟩ := hfills.filled c hc
    refine ⟨a, ?_, ha⟩
    rw [← argumentTag_inj (htag.symm.trans hm), ← hfills.eq_map_some hlen, List.getElem?_map,
      Option.map_eq_some_iff] at hma
    obtain ⟨b, hb, hba⟩ := hma
    rw [hb, hba]

theorem nodup_argumentTags (arity : Nat) : ((List.range arity).map argumentTag).Nodup := by
  rw [List.Nodup, List.pairwise_map]
  exact List.nodup_range.imp fun hne heq => hne (argumentTag_inj heq)

theorem Arranged.fills (h : Arranged arity es args) :
    Fills arity (List.replicate arity none) es (args.map some) := by
  refine ⟨h.tags.nodup_iff.mpr (nodup_argumentTags arity), ?_, ?_⟩
  · intro e he
    have hmem := h.tags.mem_iff.mp (List.mem_map_of_mem he)
    obtain ⟨n, hn, htag⟩ := List.mem_map.mp hmem
    have hlt : n < arity := List.mem_range.mp hn
    obtain ⟨a, hna, ha⟩ := h.operands e he n htag.symm
    refine ⟨n, a, hlt, htag.symm, ?_, ha, ?_⟩
    · rw [List.getElem?_replicate, if_pos hlt]
    · rw [List.getElem?_map, hna, Option.map_some]
  · intro n hn
    have hge : ¬n < arity := fun hlt => hn ((mem_tags h.tags).mpr hlt)
    rw [List.getElem?_replicate, if_neg hge, List.getElem?_eq_none]
    rw [List.length_map, h.count]
    omega

/-- **Arguments.** Reading the operands of an opcode succeeds exactly if the elements give them. -/
theorem arguments_eq_ok_iff :
    arguments order op e = .ok args ↔ Arranged op.arity e.children args := by
  constructor
  · exact arranged_of_arguments
  · intro h
    have hfound : e.children.foldlM (fill order op.arity) (List.replicate op.arity none)
        = .ok (args.map some) := (foldlM_fill_iff (List.length_replicate ..)).mpr h.fills
    unfold arguments
    simp [h.length, hfound]

/-! ## Any arrangement -/

/-- The operands do not depend on the arrangement of the elements. -/
theorem Arranged.perm {es' : List Element} (h : Arranged arity es args) (hperm : es'.Perm es) :
    Arranged arity es' args where
  tags := (hperm.map Element.tag).trans h.tags
  count := h.count
  operands := fun e he => h.operands e (hperm.mem_iff.mp he)

/-- Elements with the names of all positions, each of which holds an operand, give operands. -/
theorem exists_arranged (htags : (es.map Element.tag).Perm ((List.range arity).map argumentTag))
    (hheld : ∀ e ∈ es, ∃ a, HoldsOperand e a) : ∃ args, Arranged arity es args := by
  have hposition : ∀ n, n < arity → ∃ a, ∃ e ∈ es, e.tag = argumentTag n ∧ HoldsOperand e a := by
    intro n hn
    obtain ⟨e, he, htag⟩ := List.mem_map.mp ((mem_tags htags).mpr hn)
    obtain ⟨a, ha⟩ := hheld e he
    exact ⟨a, e, he, htag, ha⟩
  choose! f hf using hposition
  refine ⟨(List.range arity).map f, htags, by simp, ?_⟩
  intro e he n htag
  have hn : n < arity := by
    rw [← mem_tags htags, ← htag]
    exact List.mem_map_of_mem he
  -- No other element has the name, so the operand chosen for the position is the one in `e`.
  obtain ⟨e', he', htag', ha⟩ := hf n hn
  have hnodup := htags.nodup_iff.mpr (nodup_argumentTags arity)
  have hsame : e' = e := List.inj_on_of_nodup_map hnodup he' he (htag'.trans htag.symm)
  rw [hsame] at ha
  exact ⟨f n, by simp [hn], ha⟩

/-- **Operands at their positions.** Reading the operands of an opcode with `n` positions succeeds
exactly if the elements have the names of the `n` positions, each once, and each has a type and a
text that denotes an operand. There are `n` operands then, the one at a position is the one in the
element with its name, and no position was left empty. The elements may stand in any arrangement,
and another one gives the same operands. -/
theorem arguments_any_arrangement (order : Nat) (op : Opcode) (e : Element) :
    ((∃ args, arguments order op e = .ok args) ↔
      (e.children.map Element.tag).Perm ((List.range op.arity).map argumentTag) ∧
      ∀ c ∈ e.children, ∃ a type, c.attribute? "type" = some type ∧
        Argument.operand order type (trimmed c.leadingText) = .ok a) ∧
    ∀ args, arguments order op e = .ok args →
      args.length = op.arity ∧
      (∀ n, n < op.arity → ∃ c ∈ e.children, c.tag = argumentTag n ∧
        ∃ a type, c.attribute? "type" = some type ∧
          Argument.operand order type (trimmed c.leadingText) = .ok a ∧ args[n]? = some a) ∧
      e.children.foldlM (fill order op.arity) (List.replicate op.arity none)
        = .ok (args.map some) ∧
      ∀ e' : Element, e'.children.Perm e.children → arguments order op e' = .ok args := by
  simp only [arguments_eq_ok_iff]
  refine ⟨⟨?_, ?_⟩, ?_⟩
  · rintro ⟨args, h⟩
    refine ⟨h.tags, ?_⟩
    intro c hc
    obtain ⟨n, -, htag⟩ := List.mem_map.mp (h.tags.mem_iff.mp (List.mem_map_of_mem hc))
    obtain ⟨a, -, ha⟩ := h.operands c hc n htag.symm
    exact ⟨a, (holdsOperand_iff order).mp ha⟩
  · rintro ⟨htags, hheld⟩
    apply exists_arranged htags
    intro c hc
    obtain ⟨a, ha⟩ := hheld c hc
    exact ⟨a, (holdsOperand_iff order).mpr ha⟩
  · intro args h
    refine ⟨h.count, ?_, (foldlM_fill_iff (List.length_replicate ..)).mpr h.fills, ?_⟩
    · intro n hn
      obtain ⟨c, hc, htag⟩ := List.mem_map.mp ((mem_tags h.tags).mpr hn)
      obtain ⟨a, hna, ha⟩ := h.operands c hc n htag
      obtain ⟨type, htype, htext⟩ := (holdsOperand_iff order).mp ha
      exact ⟨c, hc, htag, a, type, htype, htext, hna⟩
    · intro e' hperm
      exact h.perm hperm

/-- An element that holds an operand. -/
def operandNode (tag type text : String) : Node :=
  .element ⟨none, tag⟩ [⟨⟨none, "type"⟩, type⟩] [.text text]

/-- An addition with its operands in the arrangement three, one, two. -/
def turnedAddition : Element :=
  ⟨⟨none, "instruction"⟩, [], [operandNode "arg3" "int" "7", operandNode "arg1" "var" "GF@sum",
    operandNode "arg2" "int" "5"]⟩

/-- The addition with its operands in ascending arrangement. -/
def straightAddition : Element :=
  ⟨⟨none, "instruction"⟩, [], [operandNode "arg1" "var" "GF@sum", operandNode "arg2" "int" "5",
    operandNode "arg3" "int" "7"]⟩

/-- The operands come out at their positions, and the same from both arrangements. -/
theorem arguments_any_arrangement_addition :
    arguments 1 .add turnedAddition =
        .ok [.var ⟨.global, "sum"⟩, .const (.int 5), .const (.int 7)] ∧
      arguments 1 .add straightAddition =
        .ok [.var ⟨.global, "sum"⟩, .const (.int 5), .const (.int 7)] := by
  have hturned : arguments 1 .add turnedAddition =
      .ok [.var ⟨.global, "sum"⟩, .const (.int 5), .const (.int 7)] :=
    eq_ok_of_toOption (by decide +kernel)
  obtain ⟨-, -, -, hany⟩ := (arguments_any_arrangement 1 .add turnedAddition).2 _ hturned
  refine ⟨hturned, hany straightAddition ?_⟩
  exact List.perm_append_singleton _ [_, _]

end FrameCode.Source
