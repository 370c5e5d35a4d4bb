import FrameCode.Proofs.Checks
import FrameCode.Source.Load

/-!
# Sorting by orders

Loading sorts instructions by the orders they declare and then looks for two neighbours with the
same one. In a sorted list equal orders stand side by side, so no neighbours share one exactly if no
two instructions do (`repeatedOrder?_eq_none`).

Two facts follow. The sorted list is the one arrangement of the instructions with ascending orders
(`sorted_eq_ok_iff`), so nothing is lost and nothing is there twice. And neither the sorted list nor
the order that is reported as a duplicate depends on how the instructions were arranged before
(`sorted_perm`): the least order that occurs twice is reported.
-/

namespace FrameCode.Source

open FrameCode.Checks

variable {is js : List Instruction}

/-- The arrangement by orders, equal ones in any order. -/
def Ascending (is : List Instruction) : Prop :=
  is.Pairwise fun a b => a.order ≤ b.order

/-- The arrangement by orders, all of which differ. -/
def StrictlyAscending (is : List Instruction) : Prop :=
  is.Pairwise fun a b => a.order < b.order

/-! ## Neighbours with one order -/

/-- In a sorted list it is enough to compare neighbours. -/
theorem repeatedOrder?_eq_none (h : Ascending is) :
    repeatedOrder? is = none ↔ StrictlyAscending is := by
  unfold Ascending StrictlyAscending at *
  induction is with
  | nil => simp [repeatedOrder?]
  | cons a rest ih =>
    cases rest with
    | nil => simp [repeatedOrder?]
    | cons b rest =>
      have hrest := ih (List.Pairwise.of_cons h)
      have hab : a.order ≤ b.order := List.rel_of_pairwise_cons h (List.mem_cons_self ..)
      rw [repeatedOrder?, List.pairwise_cons]
      by_cases heq : a.order = b.order
      · rw [if_pos heq]
        simp [heq]
      · rw [if_neg heq, hrest, iff_and_self]
        -- Whatever follows `b` has at least the order of `b`, which is above that of `a`.
        intro hstrict c hc
        rcases List.mem_cons.mp hc with rfl | hc
        · omega
        · have hbc : b.order < c.order := List.rel_of_pairwise_cons hstrict hc
          omega

/-- The order that neighbours share depends on the orders alone. -/
theorem repeatedOrder?_congr (h : is.map Instruction.order = js.map Instruction.order) :
    repeatedOrder? is = repeatedOrder? js := by
  induction is generalizing js with
  | nil =>
    have hnil : js = [] := by simpa using h.symm
    rw [hnil]
  | cons a rest ih =>
    obtain ⟨a', rest', rfl, ha, hrest⟩ := List.map_eq_cons_iff.mp h.symm
    have htail := ih hrest.symm
    cases rest with
    | nil =>
      have hnil : rest' = [] := by simpa using hrest
      rw [hnil]
      rfl
    | cons b rest =>
      obtain ⟨b', rest'', rfl, hb, -⟩ := List.map_eq_cons_iff.mp hrest
      rw [repeatedOrder?, repeatedOrder?, htail, ha, hb]

/-! ## The sorted list -/

theorem StrictlyAscending.ascending (h : StrictlyAscending is) : Ascending is :=
  List.Pairwise.imp Nat.le_of_lt h

/-- In a list with ascending orders an instruction is known by its order. -/
theorem StrictlyAscending.eq_of_order (h : StrictlyAscending is) {a b : Instruction} (ha : a ∈ is)
    (hb : b ∈ is) (hab : a.order = b.order) : a = b := by
  unfold StrictlyAscending at h
  induction is with
  | nil => cases ha
  | cons c rest ih =>
    obtain ⟨hc, hrest⟩ := List.pairwise_cons.mp h
    rcases List.mem_cons.mp ha with rfl | ha'
    · rcases List.mem_cons.mp hb with rfl | hb'
      · rfl
      · have hlt := hc b hb'
        omega
    · rcases List.mem_cons.mp hb with rfl | hb'
      · have hlt := hc a ha'
        omega
      · exact ih hrest ha' hb'

/-- Two arrangements of instructions that ascend are the same, if an order belongs to one
instruction. -/
theorem Ascending.eq_of_perm (h : Ascending is) (h' : Ascending js) (hperm : is.Perm js)
    (hinj : ∀ a b, a ∈ is → b ∈ js → a.order = b.order → a = b) : is = js := by
  refine List.Perm.eq_of_pairwise ?_ h h' hperm
  intro a b ha hb hab hba
  exact hinj a b ha hb (Nat.le_antisymm hab hba)

theorem strictlyAscending_iff (h : Ascending is) :
    StrictlyAscending is ↔ (is.map Instruction.order).Nodup := by
  unfold Ascending StrictlyAscending at *
  unfold List.Nodup
  rw [List.pairwise_map]
  constructor
  · exact List.Pairwise.imp fun hlt => Nat.ne_of_lt hlt
  · intro hne
    exact List.Pairwise.imp₂ (fun _ _ hle hne => Nat.lt_of_le_of_ne hle hne) h hne

theorem ascending_mergeSort (is : List Instruction) :
    Ascending (is.mergeSort fun a b => decide (a.order ≤ b.order)) := by
  have htrans : ∀ a b c : Instruction, decide (a.order ≤ b.order) = true →
      decide (b.order ≤ c.order) = true → decide (a.order ≤ c.order) = true := by
    simp only [decide_eq_true_eq]
    omega
  have htotal : ∀ a b : Instruction,
      (decide (a.order ≤ b.order) || decide (b.order ≤ a.order)) = true := by
    simp only [Bool.or_eq_true, decide_eq_true_eq]
    omega
  have h := List.pairwise_mergeSort htrans htotal is
  unfold Ascending
  simpa only [decide_eq_true_eq] using h

theorem sorted_eq_ok (h : sorted is = .ok js) :
    js = is.mergeSort (fun a b => decide (a.order ≤ b.order)) ∧ StrictlyAscending js := by
  unfold sorted at h
  dsimp only at h
  split at h
  · cases h
  · rename_i hnone
    cases h
    exact ⟨rfl, (repeatedOrder?_eq_none (ascending_mergeSort is)).mp hnone⟩

/-- The sorted list is the arrangement with ascending orders. -/
theorem sorted_eq_ok_iff : sorted is = .ok js ↔ js.Perm is ∧ StrictlyAscending js := by
  constructor
  · intro h
    obtain ⟨rfl, hstrict⟩ := sorted_eq_ok h
    exact ⟨List.mergeSort_perm .., hstrict⟩
  · rintro ⟨hperm, hstrict⟩
    have hsorted := ascending_mergeSort is
    have hperm' := (List.mergeSort_perm is fun a b => decide (a.order ≤ b.order)).trans hperm.symm
    -- Both lists ascend, and in the second an instruction is known by its order.
    have heq := hsorted.eq_of_perm hstrict.ascending hperm' fun a b ha hb hab =>
      hstrict.eq_of_order (hperm'.mem_iff.mp ha) hb hab
    unfold sorted
    dsimp only
    rw [heq, (repeatedOrder?_eq_none hstrict.ascending).mpr hstrict]

/-- Instructions can be sorted if their orders differ. -/
theorem sorted_isOk_iff : (∃ js, sorted is = .ok js) ↔ (is.map Instruction.order).Nodup := by
  have hperm := (List.mergeSort_perm is fun a b => decide (a.order ≤ b.order)).map Instruction.order
  have hiff := strictlyAscending_iff (ascending_mergeSort is)
  rw [hperm.nodup_iff] at hiff
  rw [← hiff]
  constructor
  · rintro ⟨js, h⟩
    obtain ⟨rfl, hstrict⟩ := sorted_eq_ok h
    exact hstrict
  · intro hstrict
    exact ⟨_, sorted_eq_ok_iff.mpr ⟨List.mergeSort_perm .., hstrict⟩⟩

theorem sorted_failsOnly (is : List Instruction) :
    FailsOnly (fun e => ∃ n, e = .duplicateOrder n) (sorted is) := by
  intro e h
  unfold sorted at h
  dsimp only at h
  split at h
  · rename_i n _
    cases h
    exact ⟨n, rfl⟩
  · cases h

/-- **Sorting forgets the arrangement.** Two arrangements of the same instructions are sorted alike,
or the same order is reported as a duplicate. -/
theorem sorted_perm (h : is.Perm js) : sorted is = sorted js := by
  have hsort : (is.mergeSort fun a b => decide (a.order ≤ b.order)).Perm
      (js.mergeSort fun a b => decide (a.order ≤ b.order)) :=
    (List.mergeSort_perm ..).trans (h.trans (List.mergeSort_perm ..).symm)
  -- The orders in the two sorted lists are the same numbers in ascending order.
  have horders := List.Perm.eq_of_pairwise (fun _ _ _ _ => Nat.le_antisymm)
    (List.pairwise_map.mpr (ascending_mergeSort is))
    (List.pairwise_map.mpr (ascending_mergeSort js)) (hsort.map Instruction.order)
  have hrepeated := repeatedOrder?_congr horders
  rcases hjs : sorted js with e | ks
  · unfold sorted at hjs ⊢
    dsimp only at hjs ⊢
    rw [hrepeated]
    split at hjs
    · exact hjs
    · cases hjs
  · obtain ⟨hperm, hstrict⟩ := sorted_eq_ok_iff.mp hjs
    exact sorted_eq_ok_iff.mpr ⟨hperm.trans h.symm, hstrict⟩

end FrameCode.Source
