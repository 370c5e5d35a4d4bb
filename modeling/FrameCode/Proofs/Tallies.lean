import FrameCode.Proofs.Histories
import FrameCode.Proofs.Landings
import FrameCode.Proofs.Profiles

/-!
# A profile tells the history of its run

The tables of a profile grow by one entry or one count with each completed instruction. This file
says what they add up to. `Summarizes p done a` tells that the profile `a` answers each question of
a report as the list `done` of completed places does: how often an opcode stands at these places,
how many of them hold an executed instruction, the least order among the places that occur most
often, and the opcodes that occur most often. None of this mentions a table, and none of it depends
on the order of the list (`Summarizes.alike`).

Between the two stands `Tallies`, the invariant of the tables: one count for each completed place,
equal to the number of times it occurs and with the order of the instruction there. Completing an
instruction keeps it (`Tallies.record`), so every state of a run has it.
-/

namespace FrameCode

/-! ## Questions to a list of places -/

namespace Program

/-- The opcode of the instruction at a place. -/
def opcodeAt? (p : Program) (place : Nat) : Option Opcode :=
  p.instructions[place]?.map Instruction.opcode

/-- How often an opcode stands at the places of a list. -/
def occurrences (p : Program) (done : List Nat) (op : Opcode) : Nat :=
  done.countP fun place => p.opcodeAt? place == some op

/-- How many places of a list hold an instruction that is no mark and no diagnostics. -/
def executedAmong (p : Program) (done : List Nat) : Nat :=
  done.countP fun place =>
    p.opcodeAt? place ∉ [some .label, some .breakpoint, some .debugPrint]

end Program

theorem Opcode.counts_eq (op : Opcode) :
    op.counts = decide (some op ∉ [some label, some breakpoint, some debugPrint]) := by
  cases op <;> rfl

namespace Program

variable {p : Program} {i : Instruction} {place : Nat}

theorem opcodeAt?_of_instruction (hi : p.instructions[place]? = some i) :
    p.opcodeAt? place = some i.opcode := by
  rw [opcodeAt?, hi, Option.map_some]

theorem occurrences_concat (hi : p.instructions[place]? = some i) (done : List Nat)
    (op : Opcode) :
    p.occurrences (done ++ [place]) op =
      if op = i.opcode then p.occurrences done op + 1 else p.occurrences done op := by
  have hbeq : (some i.opcode == some op) = decide (op = i.opcode) := by
    rw [Bool.eq_iff_iff, beq_iff_eq, decide_eq_true_eq, Option.some.injEq, eq_comm]
  rw [occurrences, List.countP_append, List.countP_singleton, opcodeAt?_of_instruction hi, hbeq]
  by_cases hop : op = i.opcode
  · simp [hop, occurrences]
  · simp [hop, occurrences]

theorem executedAmong_concat (hi : p.instructions[place]? = some i) (done : List Nat) :
    p.executedAmong (done ++ [place]) =
      if i.opcode.counts then p.executedAmong done + 1 else p.executedAmong done := by
  rw [executedAmong, List.countP_append, List.countP_singleton, opcodeAt?_of_instruction hi,
    ← Opcode.counts_eq]
  by_cases hcounts : i.opcode.counts = true
  · simp [hcounts, executedAmong]
  · simp [hcounts, executedAmong]

end Program

namespace Profile

variable {p : Program} {done done' : List Nat} {a b : Profile} {i : Instruction} {place : Nat}

/-- The answers of a profile are those of the places that were completed. -/
structure Summarizes (p : Program) (done : List Nat) (a : Profile) : Prop where
  count : ∀ op, a.count op = p.occurrences done op
  executed : a.executed = p.executedAmong done
  hot_nil : done = [] → a.hot = 0
  /-- the least order among the places that occur most often -/
  hot : done ≠ [] →
    IsLeast { order | ∃ place ∈ done, (∀ other, done.count other ≤ done.count place) ∧
      ∃ i, p.instructions[place]? = some i ∧ i.order = order } a.hot
  /-- exactly the opcodes that occur most often -/
  frequent : ∀ op, op ∈ a.frequent ↔ ∀ op', p.occurrences done op' ≤ p.occurrences done op
  nodup : a.frequent.Nodup
  descending : a.frequent.Pairwise fun x y => y.mnemonic < x.mnemonic
  /-- all 53 opcodes, if there is nothing to count -/
  frequent_nil : done = [] → a.frequent.length = 53 ∧ ∀ op, op ∈ a.frequent

/-- Two profiles give the same answers. -/
structure Alike (a b : Profile) : Prop where
  count : ∀ op, a.count op = b.count op
  executed : a.executed = b.executed
  hot : a.hot = b.hot
  frequent : a.frequent = b.frequent

/-- **The order of completion does not matter.** Two profiles that summarize the same places give
the same answers, in whatever order the places were completed. -/
theorem Summarizes.alike (ha : a.Summarizes p done) (hb : b.Summarizes p done')
    (hperm : done.Perm done') : a.Alike b := by
  have hoccurrences : ∀ op, p.occurrences done op = p.occurrences done' op :=
    fun op => hperm.countP_eq _
  refine ⟨?_, ?_, ?_, ?_⟩
  · intro op
    rw [ha.count, hb.count, hoccurrences]
  · rw [ha.executed, hb.executed]
    exact hperm.countP_eq _
  · by_cases hnil : done = []
    · rw [ha.hot_nil hnil, hb.hot_nil (by rw [hnil] at hperm; exact hperm.nil_eq.symm)]
    · have hnil' : done' ≠ [] := by
        intro heq
        rw [heq] at hperm
        exact hnil hperm.eq_nil
      have hleast := hb.hot hnil'
      simp only [← hperm.mem_iff, ← hperm.count_eq] at hleast
      exact (ha.hot hnil).unique hleast
  · -- Both lists have the same members and descend strictly.
    have hsame : a.frequent.Perm b.frequent := by
      rw [List.perm_ext_iff_of_nodup ha.nodup hb.nodup]
      intro op
      rw [ha.frequent, hb.frequent]
      simp only [hoccurrences]
    refine List.Perm.eq_of_pairwise ?_ ha.descending hb.descending hsame
    intro x y _ _ hxy hyx
    exact absurd hyx (String.lt_asymm hxy)

/-! ## The tables -/

/-- What the tables of a profile hold when the places of a list have been completed. -/
structure Tallies (p : Program) (done : List Nat) (a : Profile) : Prop where
  count : ∀ op, a.count op = p.occurrences done op
  executed : a.executed = p.executedAmong done
  nodup : (a.hits.map Hit.place).Nodup
  places : ∀ place, place ∈ a.hits.map Hit.place ↔ place ∈ done
  hits : ∀ h ∈ a.hits, h.count = done.count h.place ∧
    ∃ i, p.instructions[h.place]? = some i ∧ i.order = h.order

theorem tallies_empty (p : Program) : Tallies p [] .empty where
  count _ := rfl
  executed := rfl
  nodup := List.nodup_nil
  places _ := Iff.rfl
  hits _ hmem := by cases hmem

/-- What is observed of the variables does not show in the tables. -/
theorem Tallies.withPeak (h : Tallies p done a) (peak : Nat) :
    Tallies p done { a with peakVariables := peak } :=
  ⟨h.count, h.executed, h.nodup, h.places, h.hits⟩

/-- Completing the instruction at a place is counted in all three tables. -/
theorem Tallies.record (h : Tallies p done a) (hi : p.instructions[place]? = some i)
    (hindex : i.index = place) : Tallies p (done ++ [place]) (a.record i) := by
  have hhits : (a.record i).hits = recordHit place i.order a.hits := by
    rw [← hindex]
    rfl
  refine ⟨?_, ?_, ?_, ?_, ?_⟩
  · intro op
    rw [count_record, h.count, Program.occurrences_concat hi]
  · rw [Program.executedAmong_concat hi, ← h.executed]
    rfl
  · rw [hhits]
    exact nodup_places_recordHit place i.order h.nodup
  · intro x
    rw [hhits, mem_places_recordHit, h.places, List.mem_append, List.mem_singleton]
  · intro g hg
    rw [hhits] at hg
    rw [List.count_append]
    -- A count of another place is as it was; this place has one more, or its first.
    rcases mem_recordHit h.nodup hg with ⟨hold, hne⟩ | ⟨k, hk, hplace, rfl⟩ | ⟨hnew, rfl⟩
    · obtain ⟨hcount, horder⟩ := h.hits g hold
      refine ⟨?_, horder⟩
      rw [hcount, List.count_singleton, if_neg (by simpa using Ne.symm hne), Nat.add_zero]
    · obtain ⟨hcount, horder⟩ := h.hits k hk
      refine ⟨?_, horder⟩
      simp [hcount, hplace]
    · have hzero : done.count place = 0 := by
        rw [List.count_eq_zero]
        intro hmem
        exact hnew ((h.places place).mpr hmem)
      refine ⟨?_, i, hi, rfl⟩
      simp [hzero]

/-- The places with the largest count are those that occur most often. -/
theorem Tallies.isLeast_hot (h : Tallies p done a) (hne : done ≠ []) :
    IsLeast { order | ∃ place ∈ done, (∀ other, done.count other ≤ done.count place) ∧
      ∃ i, p.instructions[place]? = some i ∧ i.order = order } a.hot := by
  have hhits : a.hits ≠ [] := by
    obtain ⟨place, hplace⟩ := List.exists_mem_of_ne_nil done hne
    obtain ⟨g, hg, -⟩ := List.mem_map.mp ((h.places place).mpr hplace)
    exact List.ne_nil_of_mem hg
  have hset : { order | ∃ g ∈ a.hits, (∀ k ∈ a.hits, k.count ≤ g.count) ∧ g.order = order } =
      { order | ∃ place ∈ done, (∀ other, done.count other ≤ done.count place) ∧
        ∃ i, p.instructions[place]? = some i ∧ i.order = order } := by
    ext order
    constructor
    · rintro ⟨g, hg, hall, rfl⟩
      obtain ⟨hcount, horder⟩ := h.hits g hg
      refine ⟨g.place, (h.places _).mp (List.mem_map_of_mem hg), ?_, horder⟩
      intro other
      -- A place that was completed has a count to compare with, and any other occurs no time.
      by_cases hother : other ∈ done
      · obtain ⟨k, hk, rfl⟩ := List.mem_map.mp ((h.places other).mpr hother)
        rw [← (h.hits k hk).1, ← hcount]
        exact hall k hk
      · rw [List.count_eq_zero.mpr hother]
        exact Nat.zero_le _
    · rintro ⟨place, hplace, hall, i, hi, rfl⟩
      obtain ⟨g, hg, rfl⟩ := List.mem_map.mp ((h.places place).mpr hplace)
      obtain ⟨hcount, j, hj, horder⟩ := h.hits g hg
      rw [hi, Option.some.injEq] at hj
      refine ⟨g, hg, ?_, by rw [hj, horder]⟩
      intro k hk
      rw [(h.hits k hk).1, hcount]
      exact hall k.place
  rw [← hset]
  exact a.isLeast_hot hhits

/-- The tables answer the questions of a report. -/
theorem Tallies.summarizes (h : Tallies p done a) : Summarizes p done a := by
  have hfrequent : ∀ op, op ∈ a.frequent ↔
      ∀ op', p.occurrences done op' ≤ p.occurrences done op := by
    intro op
    rw [mem_frequent_iff]
    simp only [h.count]
  refine ⟨h.count, h.executed, ?_, h.isLeast_hot, hfrequent, a.nodup_frequent,
    a.descending_frequent, ?_⟩
  · intro hnil
    have hhits : a.hits = [] := by
      rw [← List.map_eq_nil_iff (f := Hit.place), List.eq_nil_iff_forall_not_mem]
      intro place hplace
      rw [h.places, hnil] at hplace
      cases hplace
    simp [Profile.hot, hhits]
  · intro hnil
    have hall : ∀ op, op ∈ a.frequent := by
      intro op
      rw [hfrequent, hnil]
      intro op'
      exact Nat.le_refl 0
    have hperm : a.frequent.Perm Opcode.all := by
      rw [List.perm_ext_iff_of_nodup a.nodup_frequent Opcode.nodup_all]
      intro op
      exact iff_of_true (hall op) (Opcode.mem_all op)
    exact ⟨hperm.length_eq, hall⟩

end Profile

/-! ## Every state of a run -/

namespace Machine

variable {p : Program} {s : State} {o : Outcome} {done : List Nat}

/-- An effect changes nothing in the profile but the peak of variables. -/
theorem profile_of_perform (s : State) (e : Effect) :
    ∃ peak, (s.perform e).state.profile = { s.profile with peakVariables := peak } := by
  cases e with
  | read | write | diagnose =>
    unfold State.perform
    dsimp only
    split
    · exact ⟨_, rfl⟩
    · exact ⟨_, rfl⟩
  | _ => exact ⟨_, rfl⟩

/-- A step tallies its place, unless it fails. -/
theorem tallies_of_step? (hp : p.Numbered) (hs : s.profile.Tallies p done)
    (h : step? p s = some o) : o.state.profile.Tallies p (done ++ o.completedAt s.counter) := by
  obtain ⟨i, hi, hc⟩ := exists_of_step? h
  have hindex : i.index = s.counter := hp _ _ hi
  cases o with
  | next t =>
    obtain ⟨e, u, -, hu, rfl⟩ := State.carryOut_eq_next hc
    obtain ⟨peak, hpeak⟩ := profile_of_perform (s.advanced.taking _) e
    have hprofile : u.profile = { s.profile with peakVariables := peak } := by
      rw [hu] at hpeak
      exact hpeak
    simp only [Outcome.state, State.completed, hprofile]
    exact (hs.withPeak peak).record hi hindex
  | exit code t =>
    obtain ⟨-, rfl⟩ := State.carryOut_eq_exit hc
    exact hs.record hi hindex
  | fault cause t =>
    obtain ⟨lost, hkept⟩ := kept_of_fault h
    have hprofile : (Outcome.fault cause t).state.profile = s.profile := hkept.profile
    rw [hprofile, Outcome.completedAt, List.append_nil]
    exact hs

/-- Every state of a run has tallied the places completed so far. -/
theorem tallies_stateAfter (hp : p.Numbered) (input : Input) (output diagnostics : Output)
    (n : Nat) :
    (stateAfter p n (.initial input output diagnostics)).profile.Tallies p
      (completedWithin p n (.initial input output diagnostics)) := by
  induction n with
  | zero => exact Profile.tallies_empty p
  | succ n ih =>
    rcases history_succ p n (.initial input output diagnostics) with
      ⟨hsame, hdone⟩ | ⟨o, hstep, hnext, hdone⟩
    · rw [hsame, hdone]
      exact ih
    · rw [hnext, hdone]
      exact tallies_of_step? hp ih hstep

/-- **The profile tells the history.** In every state of the run of a program, its profile answers
every question of a report as the places do that were completed so far, a failing one not among
them. A state of another run that has completed the same places, in whatever order, gives the same
answers. -/
theorem profile_summarizes (hp : p.Numbered) (input : Input) (output diagnostics : Output)
    (n : Nat) :
    (stateAfter p n (.initial input output diagnostics)).profile.Summarizes p
      (completedWithin p n (.initial input output diagnostics)) ∧
    ∀ input' output' diagnostics' m,
      (completedWithin p n (.initial input output diagnostics)).Perm
        (completedWithin p m (.initial input' output' diagnostics')) →
      (stateAfter p n (.initial input output diagnostics)).profile.Alike
        (stateAfter p m (.initial input' output' diagnostics')).profile := by
  have hn := (tallies_stateAfter hp input output diagnostics n).summarizes
  refine ⟨hn, ?_⟩
  intro input' output' diagnostics' m hperm
  have hm := (tallies_stateAfter hp input' output' diagnostics' m).summarizes
  exact hn.alike hm hperm

/-- A loop that is left when its variable has become false, in its second round. -/
def loopingInstructions : List Instruction :=
  [{ opcode := .defVar, args := [.var ⟨.global, "again"⟩], order := 1 },
    { opcode := .move, args := [.var ⟨.global, "again"⟩, .const (.bool true)], order := 2 },
    { opcode := .label, args := [.label "loop"], order := 3 },
    { opcode := .jumpIfEq,
      args := [.label "done", .var ⟨.global, "again"⟩, .const (.bool false)], order := 4 },
    { opcode := .move, args := [.var ⟨.global, "again"⟩, .const (.bool false)], order := 5 },
    { opcode := .jump, args := [.label "loop"], order := 6 },
    { opcode := .label, args := [.label "done"], order := 7 }]

/-- The program with the instructions of `loopingInstructions`. -/
def loopingProgram : Program :=
  ⟨(Program.number loopingInstructions).toArray, ⟨[("done", 6), ("loop", 2)]⟩⟩

/-- The run completes the label and the conditional jump of the loop twice, so its hot order is that
of the label, and the two labels make three of the nine instructions. After its end nothing changes
any more. -/
theorem profile_summarizes_looping :
    ∃ f, Ends loopingProgram (.initial { rest := [] } {} {}) f ∧
      f.state.profile.Summarizes loopingProgram [0, 1, 2, 3, 4, 5, 2, 3, 6] ∧
      f.state.profile.Alike
        (stateAfter loopingProgram 9 (.initial { rest := [] } {} {})).profile ∧
      f.state.profile.executed = 6 ∧ f.state.profile.hot = 3 := by
  have hbuilt : Program.ofInstructions loopingInstructions = .ok loopingProgram := rfl
  obtain ⟨hsummarizes, halike⟩ :=
    profile_summarizes (Program.numbered_ofInstructions hbuilt) { rest := [] } {} {} 12
  have hrun : run? loopingProgram 12 (.initial { rest := [] } {} {}) = some _ := rfl
  have hstate := state_of_run? hrun
  refine ⟨_, ⟨12, hrun⟩, ?_, ?_, rfl, rfl⟩
  · rw [hstate]
    exact hsummarizes
  · rw [hstate]
    exact halike _ _ _ 9 (List.Perm.refl _)

end Machine

end FrameCode
