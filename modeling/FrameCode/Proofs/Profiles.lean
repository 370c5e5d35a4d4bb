import FrameCode.Machine.Profile
import FrameCode.Proofs.Checks
import FrameCode.Proofs.Mnemonics
import Mathlib.Order.Bounds.Basic

/-!
# The counts of a run

A profile counts what has been completed. `count_record` says what one more instruction does to the
count of an opcode, and `mem_places_recordHit` and `mem_recordHit` what it does to those of places.
The two questions that a report asks of the counts are each for the largest one: `isLeast_hot` and
`mem_frequent_iff` answer them without going through the tables.

`Agrees` is what two runs have in common that differ in their diagnostics only: breakpoints and
debugging prints are counted by opcode, but not as executed instructions.
-/

namespace FrameCode.Profile

open FrameCode.Checks

/-! ## Counting opcodes -/

theorem lookup_recordOpcode (op op' : Opcode) (l : List (Opcode × Nat)) :
    ((recordOpcode op l).lookup op').getD 0 =
      if op' = op then (l.lookup op').getD 0 + 1 else (l.lookup op').getD 0 := by
  induction l with
  | nil =>
    unfold recordOpcode
    rw [lookup_cons_ite]
    split
    · rfl
    · rfl
  | cons head rest ih =>
    obtain ⟨o, n⟩ := head
    unfold recordOpcode
    by_cases ho : o = op
    · rw [if_pos ho, lookup_cons_ite, lookup_cons_ite, ho]
      split
      · rfl
      · rfl
    · rw [if_neg ho, lookup_cons_ite, lookup_cons_ite]
      by_cases h : op' = o
      · have hne : op' ≠ op := by
          rw [h]
          exact ho
        rw [if_pos h, if_neg hne, if_pos h]
      · rw [if_neg h, ih, if_neg h]

/-- Completing an instruction counts its opcode and no other. -/
theorem count_record (a : Profile) (i : Instruction) (op : Opcode) :
    (a.record i).count op = if op = i.opcode then a.count op + 1 else a.count op :=
  lookup_recordOpcode i.opcode op a.opcodes

/-! ## Counting places -/

/-- Completing an instruction adds its place to those that have a count, unless it is there. -/
theorem places_recordHit (place order : Nat) (l : List Hit) :
    (recordHit place order l).map Hit.place =
      if place ∈ l.map Hit.place then l.map Hit.place else l.map Hit.place ++ [place] := by
  induction l with
  | nil => simp [recordHit]
  | cons h rest ih =>
    by_cases hplace : h.place = place
    · simp [recordHit, hplace]
    · have hne : place ≠ h.place := fun heq => hplace heq.symm
      simp only [recordHit, if_neg hplace, List.map_cons, ih, List.mem_cons, hne, false_or]
      by_cases hmem : place ∈ rest.map Hit.place
      · rw [if_pos hmem, if_pos hmem]
      · rw [if_neg hmem, if_neg hmem, List.cons_append]

theorem nodup_places_recordHit (place order : Nat) {l : List Hit}
    (hnodup : (l.map Hit.place).Nodup) : ((recordHit place order l).map Hit.place).Nodup := by
  rw [places_recordHit]
  by_cases hmem : place ∈ l.map Hit.place
  · rw [if_pos hmem]
    exact hnodup
  · rw [if_neg hmem, List.nodup_append]
    refine ⟨hnodup, List.nodup_singleton place, ?_⟩
    intro x hx y hy hxy
    rw [List.mem_singleton] at hy
    rw [hxy, hy] at hx
    exact hmem hx

theorem mem_places_recordHit (place order : Nat) (l : List Hit) (x : Nat) :
    x ∈ (recordHit place order l).map Hit.place ↔ x ∈ l.map Hit.place ∨ x = place := by
  rw [places_recordHit]
  by_cases hmem : place ∈ l.map Hit.place
  · rw [if_pos hmem, iff_self_or]
    intro heq
    rw [heq]
    exact hmem
  · rw [if_neg hmem, List.mem_append, List.mem_singleton]

/-- A count after one more completion is that of another place, or one more than the place had, or
the first one of the place, with the order of the instruction. -/
theorem mem_recordHit {place order : Nat} {l : List Hit} {h : Hit}
    (hnodup : (l.map Hit.place).Nodup) (hmem : h ∈ recordHit place order l) :
    (h ∈ l ∧ h.place ≠ place) ∨
      (∃ g ∈ l, g.place = place ∧ h = { g with count := g.count + 1 }) ∨
      place ∉ l.map Hit.place ∧ h = ⟨place, order, 1⟩ := by
  induction l with
  | nil => simpa [recordHit] using hmem
  | cons k rest ih =>
    rw [List.map_cons, List.nodup_cons] at hnodup
    obtain ⟨hfresh, hrest⟩ := hnodup
    by_cases hplace : k.place = place
    · rw [recordHit, if_pos hplace] at hmem
      rcases List.mem_cons.mp hmem with rfl | hmem
      · exact .inr (.inl ⟨k, List.mem_cons_self .., hplace, rfl⟩)
      · -- The place has one count only, and it is not in the rest.
        refine .inl ⟨List.mem_cons_of_mem _ hmem, fun heq => hfresh ?_⟩
        rw [hplace, ← heq]
        exact List.mem_map_of_mem hmem
    · rw [recordHit, if_neg hplace] at hmem
      rcases List.mem_cons.mp hmem with rfl | hmem
      · exact .inl ⟨List.mem_cons_self .., hplace⟩
      · rcases ih hrest hmem with ⟨hold, hne⟩ | ⟨g, hg, hgplace, rfl⟩ | ⟨hnew, rfl⟩
        · exact .inl ⟨List.mem_cons_of_mem _ hold, hne⟩
        · exact .inr (.inl ⟨g, List.mem_cons_of_mem _ hg, hgplace, rfl⟩)
        · refine .inr (.inr ⟨?_, rfl⟩)
          simp only [List.map_cons, List.mem_cons, not_or]
          exact ⟨fun heq => hplace heq.symm, hnew⟩

/-! ## The largest counts -/

/-- The largest number of a list is one of it, or zero, and no number of the list is larger. -/
theorem largest_spec (ns : List Nat) :
    largest ns ∈ 0 :: ns ∧ ∀ n ∈ ns, n ≤ largest ns := by
  have hmax : (0 :: ns).max? = some (largest ns) := rfl
  obtain ⟨hmem, hle⟩ := List.max?_eq_some_iff.mp hmax
  exact ⟨hmem, fun n hn => hle n (List.mem_cons_of_mem _ hn)⟩

/-- A member of a list has the largest value of a function exactly if no other has a larger one. -/
theorem eq_largest_iff {α : Type} {l : List α} (f : α → Nat) {x : α} (hx : x ∈ l) :
    f x = largest (l.map f) ↔ ∀ y ∈ l, f y ≤ f x := by
  obtain ⟨hmem, hle⟩ := largest_spec (l.map f)
  constructor
  · intro heq y hy
    rw [heq]
    exact hle _ (List.mem_map_of_mem hy)
  · intro hall
    have hxle := hle _ (List.mem_map_of_mem hx)
    rcases List.mem_cons.mp hmem with hzero | hmem
    · omega
    · obtain ⟨y, hy, hfy⟩ := List.mem_map.mp hmem
      have hyle := hall y hy
      omega

theorem exists_eq_largest {α : Type} {l : List α} (f : α → Nat) (hne : l ≠ []) :
    ∃ x ∈ l, f x = largest (l.map f) := by
  obtain ⟨hmem, hle⟩ := largest_spec (l.map f)
  rcases List.mem_cons.mp hmem with hzero | hmem
  · -- Nothing exceeds zero, so any member will do.
    obtain ⟨x, hx⟩ := List.exists_mem_of_ne_nil l hne
    have hxle := hle _ (List.mem_map_of_mem hx)
    exact ⟨x, hx, by omega⟩
  · obtain ⟨x, hx, hfx⟩ := List.mem_map.mp hmem
    exact ⟨x, hx, hfx⟩

/-- **The hot order** is the least one among the places with the largest count. -/
theorem isLeast_hot (a : Profile) (hne : a.hits ≠ []) :
    IsLeast { order | ∃ h ∈ a.hits, (∀ g ∈ a.hits, g.count ≤ h.count) ∧ h.order = order }
      a.hot := by
  have hmem : ∀ order, order ∈ (a.hits.filter (·.count == a.hottest)).map Hit.order ↔
      ∃ h ∈ a.hits, (∀ g ∈ a.hits, g.count ≤ h.count) ∧ h.order = order := by
    intro order
    simp only [List.mem_map, List.mem_filter, beq_iff_eq]
    constructor
    · rintro ⟨h, ⟨hh, hcount⟩, rfl⟩
      exact ⟨h, hh, (eq_largest_iff Hit.count hh).mp hcount, rfl⟩
    · rintro ⟨h, hh, hall, rfl⟩
      exact ⟨h, ⟨hh, (eq_largest_iff Hit.count hh).mpr hall⟩, rfl⟩
  obtain ⟨h, hh, hcount⟩ := exists_eq_largest Hit.count hne
  have hsome := List.isSome_min?_of_mem
    ((hmem h.order).mpr ⟨h, hh, (eq_largest_iff Hit.count hh).mp hcount, rfl⟩)
  obtain ⟨order, horder⟩ := Option.isSome_iff_exists.mp hsome
  have hhot : a.hot = order := by
    unfold hot
    rw [horder, Option.getD_some]
  obtain ⟨hleast, hle⟩ := List.min?_eq_some_iff.mp horder
  rw [hhot]
  exact ⟨(hmem order).mp hleast, fun order' horder' => hle order' ((hmem order').mpr horder')⟩

/-- The frequent opcodes are those with the highest count. -/
theorem mem_frequent_iff (a : Profile) (op : Opcode) :
    op ∈ a.frequent ↔ ∀ op', a.count op' ≤ a.count op := by
  unfold frequent highest
  rw [List.mem_mergeSort, List.mem_filter, beq_iff_eq, and_iff_right (Opcode.mem_all op),
    eq_largest_iff a.count (Opcode.mem_all op)]
  constructor
  · intro h op'
    exact h op' (Opcode.mem_all op')
  · intro h op' _
    exact h op'

theorem nodup_frequent (a : Profile) : a.frequent.Nodup := by
  have hfilter := Opcode.nodup_all.filter fun op => a.count op == a.highest
  exact (List.mergeSort_perm ..).nodup_iff.mpr hfilter

/-- The frequent opcodes stand in strictly descending order of their mnemonics. -/
theorem descending_frequent (a : Profile) :
    a.frequent.Pairwise fun x y => y.mnemonic < x.mnemonic := by
  have htrans : ∀ x y z : Opcode, decide (y.mnemonic ≤ x.mnemonic) = true →
      decide (z.mnemonic ≤ y.mnemonic) = true → decide (z.mnemonic ≤ x.mnemonic) = true := by
    intro x y z hxy hyz
    simp only [decide_eq_true_eq] at hxy hyz ⊢
    exact String.le_trans hyz hxy
  have htotal : ∀ x y : Opcode,
      (decide (y.mnemonic ≤ x.mnemonic) || decide (x.mnemonic ≤ y.mnemonic)) = true := by
    intro x y
    simp only [Bool.or_eq_true, decide_eq_true_eq]
    exact String.le_total y.mnemonic x.mnemonic
  have hsorted : a.frequent.Pairwise fun x y => y.mnemonic ≤ x.mnemonic := by
    have h := List.pairwise_mergeSort htrans htotal
      (Opcode.all.filter fun op => a.count op == a.highest)
    unfold frequent
    simpa only [decide_eq_true_eq] using h
  refine List.Pairwise.imp₂ ?_ hsorted a.nodup_frequent
  intro x y hle hne
  exact Std.lt_of_le_of_ne hle fun heq => hne (Opcode.eq_of_mnemonic heq.symm)

/-! ## Profiles up to diagnostics -/

/-- Two profiles agree in everything but the places and the counts of diagnostics. -/
structure Agrees (a b : Profile) : Prop where
  executed : a.executed = b.executed
  peakVariables : a.peakVariables = b.peakVariables
  count : ∀ op, op ≠ .breakpoint → op ≠ .debugPrint → a.count op = b.count op

variable {a b : Profile} {i i' : Instruction}

theorem Agrees.record (h : a.Agrees b) (hop : i.opcode = i'.opcode) :
    (a.record i).Agrees (b.record i') := by
  refine ⟨?_, h.peakVariables, ?_⟩
  · unfold Profile.record
    dsimp only
    rw [hop, h.executed]
  · intro op hb hd
    rw [count_record, count_record, hop, h.count op hb hd]

theorem Agrees.observe (h : a.Agrees b) (reach : Nat) :
    (a.observe reach).Agrees (b.observe reach) := by
  refine ⟨h.executed, ?_, h.count⟩
  unfold Profile.observe
  dsimp only
  rw [h.peakVariables]

/-- Diagnostics on one side only do not show. -/
theorem Agrees.record_diagnostics (h : a.Agrees b)
    (hop : i'.opcode = .breakpoint ∨ i'.opcode = .debugPrint) : a.Agrees (b.record i') := by
  refine ⟨?_, h.peakVariables, ?_⟩
  · unfold Profile.record
    dsimp only
    rcases hop with hop | hop
    · rw [hop]
      exact h.executed
    · rw [hop]
      exact h.executed
  · intro op hb hd
    have hne : op ≠ i'.opcode := by
      rcases hop with hop | hop
      · rw [hop]
        exact hb
      · rw [hop]
        exact hd
    rw [count_record, if_neg hne]
    exact h.count op hb hd

end FrameCode.Profile
