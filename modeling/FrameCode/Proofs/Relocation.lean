import FrameCode.Proofs.Profiles
import FrameCode.Proofs.Steps

/-!
# Relocated programs

Two programs may have the same code at different places. The places of one are then the images of
the places of the other under some function, and so are the places that their labels resolve to and
those on their call stacks. Apart from that, an instruction does the same in both.

`Relocated f s s'` is the relation between a state of the one machine and a state of the other,
where `f` takes the places of the second to those of the first. It leaves out what the diagnostics
say, which depends on the places, and how often diagnostics were given. An instruction carried out
in related states leads to related outcomes (`carryOut_relocated`): the decisions are the same up to
the places in them, and performing two such decisions preserves the relation.
-/

namespace FrameCode

/-! ## Outputs that never fail -/

/-- An output that takes everything and can be flushed. -/
structure Output.NeverFails (o : Output) : Prop where
  limit : o.limit = none
  refusesFlush : o.refusesFlush = false

theorem Output.write_of_neverFails {o : Output} (h : o.NeverFails) (text : String) :
    ∃ after, o.write text = (.ok (), after) ∧ after.NeverFails :=
  ⟨_, write_of_unlimited h.limit text, h.limit, h.refusesFlush⟩

namespace Machine

open FrameCode.Checks

variable {f : Nat → Nat} {p p' : Program} {s s' : State} {i i' : Instruction}

/-! ## Decisions up to places -/

/-- The effect with its places moved. -/
def Effect.relocate (f : Nat → Nat) : Effect → Effect
  | .jump place => .jump (f place)
  | .call place => .call (f place)
  | .comeBack place => .comeBack (f place)
  | e => e

/-- The decision with its places moved. -/
def Decision.relocate (f : Nat → Nat) (d : Decision) : Decision :=
  ⟨d.taken, d.verdict.map (Effect.relocate f)⟩

theorem Decision.relocate_eq_self {d : Decision} (h : ∀ e, d.verdict = .ok e → e.relocate f = e) :
    d.relocate f = d := by
  obtain ⟨taken, cause | e⟩ := d
  · rfl
  · exact congrArg (fun e => Decision.mk taken (.ok e)) (h e rfl)

theorem relocate_jumpEffect (place : Nat) (taken : Bool) :
    (jumpEffect place taken).relocate f = jumpEffect (f place) taken := by
  unfold jumpEffect
  split
  · rfl
  · rfl

theorem target_relocated
    (hlabels : ∀ name, p.labels.resolve? name = (p'.labels.resolve? name).map f) :
    target p i = (target p' i).map f := by
  unfold target
  rw [map_after_bind]
  congr 1
  funext name
  rw [hlabels]
  rcases p'.labels.resolve? name with _ | place
  · rfl
  · rfl

/-- A decision depends on an instruction through its operands. -/
theorem decisionAs_congr {o : Operation} (hargs : i.args = i'.args) :
    decisionAs p s i o = decisionAs p s i' o := by
  have ha : argument i = argument i' := by
    unfold argument
    rw [hargs]
  have hv : variableArgument i = variableArgument i' := by
    unfold variableArgument
    rw [ha]
  have hl : labelArgument i = labelArgument i' := by
    unfold labelArgument
    rw [ha]
  have ht : typeArgument i = typeArgument i' := by
    unfold typeArgument
    rw [ha]
  unfold decisionAs cellArgument valueArgument destination target
  rw [ha, hv, hl, ht]

/-! ## States and outcomes up to places -/

/-- Two states are the same up to their places, which `f` takes from the second to the first, and up
to their diagnostics, which never fail. -/
structure Relocated (f : Nat → Nat) (s s' : State) : Prop where
  counter : s.counter = f s'.counter
  memory : s.memory = s'.memory
  calls : s.calls = s'.calls.map f
  stack : s.stack = s'.stack
  profile : s.profile.Agrees s'.profile
  input : s.input = s'.input
  output : s.output = s'.output
  diagnostics : s.diagnostics.NeverFails
  diagnostics' : s'.diagnostics.NeverFails

/-- Two outcomes of the same kind with states that are the same up to places. -/
inductive RelocatedOutcome (f : Nat → Nat) : Outcome → Outcome → Prop
  | next {s s' : State} (h : Relocated f s s') : RelocatedOutcome f (.next s) (.next s')
  | exit {s s' : State} (code : Nat) (h : Relocated f s s') :
    RelocatedOutcome f (.exit code s) (.exit code s')
  | fault {s s' : State} (cause : Cause) (h : Relocated f s s') :
    RelocatedOutcome f (.fault cause s) (.fault cause s')

/-- Only what a breakpoint writes depends on the places; every other decision is the same up to the
places it names. -/
theorem decisionAs_relocated {o : Operation} (hs : Relocated f s s')
    (hlabels : ∀ name, p.labels.resolve? name = (p'.labels.resolve? name).map f)
    (ho : o ≠ .breakpoint) : decisionAs p s i o = (decisionAs p' s' i o).relocate f := by
  have ht : target p i = (target p' i).map f := target_relocated hlabels
  cases o with
  | breakpoint => exact absurd rfl ho
  | jump | call =>
    simp only [decisionAs, Decision.of, Decision.relocate, ht, map_after_bind, bind_after_map]
    rfl
  | jumpIf whenEqual =>
    simp only [decisionAs, Decision.of, Decision.relocate, ht, hs.memory, map_after_bind,
      bind_after_map, pure_eq, ← relocate_jumpEffect]
    rfl
  | stackJumpIf whenEqual =>
    simp only [decisionAs, Decision.relocate, ht, hs.stack, bind_after_map, pure_eq,
      ← relocate_jumpEffect]
    split
    · simp only [map_after_bind]
      rfl
    · rfl
  | comeBack =>
    simp only [decisionAs, Decision.of, Decision.relocate, hs.calls]
    rcases s'.calls with _ | ⟨place, rest⟩
    · rfl
    · rfl
  | _ =>
    -- The others look at the memory and the data stack only, and decide on no place.
    rw [Decision.relocate_eq_self]
    · simp only [decisionAs, hs.memory, hs.stack]
    · intro e he
      have hperforms := decisionAs_performs he
      cases e with
      | jump | call | comeBack => exact hperforms.elim
      | _ => rfl

/-! ## Performing -/

/-- Giving diagnostics changes the diagnostics only. -/
theorem perform_diagnose (h : s.diagnostics.NeverFails) (text : String) :
    ∃ after, s.perform (.diagnose text) = .next { s with diagnostics := after } ∧
      after.NeverFails := by
  obtain ⟨after, hwrite, hafter⟩ := Output.write_of_neverFails h text
  refine ⟨after, ?_, hafter⟩
  unfold State.perform
  dsimp only
  rw [hwrite]

theorem perform_diagnose_relocated (hs : Relocated f s s') (text text' : String) :
    RelocatedOutcome f (s.perform (.diagnose text)) (s'.perform (.diagnose text')) := by
  obtain ⟨after, h, hafter⟩ := perform_diagnose hs.diagnostics text
  obtain ⟨after', h', hafter'⟩ := perform_diagnose hs.diagnostics' text'
  rw [h, h']
  exact .next { hs with diagnostics := hafter, diagnostics' := hafter' }

/-- Performing an effect and the effect with its places moved. -/
theorem perform_relocated (hs : Relocated f s s') (e : Effect) :
    RelocatedOutcome f (s.perform (e.relocate f)) (s'.perform e) := by
  cases e with
  | nothing => exact .next hs
  | store v x => exact .next { hs with memory := congrArg (Memory.store · v x) hs.memory }
  | declare v =>
    refine .next { hs with memory := congrArg (Memory.declare · v) hs.memory, profile := ?_ }
    change (s.profile.observe (s.memory.declare v).variablesInReach).Agrees _
    rw [hs.memory]
    exact hs.profile.observe _
  | createFrame => exact .next { hs with memory := congrArg Memory.createFrame hs.memory }
  | pushFrame => exact .next { hs with memory := congrArg Memory.pushFrame hs.memory }
  | popFrame =>
    refine .next { hs with memory := congrArg Memory.popFrame hs.memory, profile := ?_ }
    change (s.profile.observe s.memory.popFrame.variablesInReach).Agrees _
    rw [hs.memory]
    exact hs.profile.observe _
  | push x => exact .next { hs with stack := congrArg (x :: ·) hs.stack }
  | clear => exact .next { hs with stack := rfl }
  | jump place => exact .next { hs with counter := rfl }
  | call place =>
    -- Both counters have moved past the call already, and they are what is put down.
    refine .next { hs with counter := rfl, calls := ?_ }
    change s.counter :: s.calls = f s'.counter :: s'.calls.map f
    rw [hs.counter, hs.calls]
  | comeBack place =>
    refine .next { hs with counter := rfl, calls := ?_ }
    change s.calls.tail = s'.calls.tail.map f
    rw [hs.calls, List.map_tail]
  | read v ty =>
    unfold State.perform Effect.relocate
    dsimp only
    rw [hs.input]
    rcases s'.input.readLine with ⟨reason | line, input⟩
    · exact .fault _ { hs with input := rfl }
    · refine .next { hs with input := rfl, memory := ?_ }
      exact congrArg (Memory.store · v _) hs.memory
  | write text =>
    unfold State.perform Effect.relocate
    dsimp only
    rw [hs.output]
    rcases s'.output.write text with ⟨reason | _, output⟩
    · exact .fault _ { hs with output := rfl }
    · exact .next { hs with output := rfl }
  | diagnose text => exact perform_diagnose_relocated hs text text
  | exit code => exact .exit code hs

/-! ## Carrying out -/

theorem taking_relocated (hs : Relocated f s s') (k : Nat) :
    Relocated f (s.taking k) (s'.taking k) :=
  { hs with stack := congrArg (List.drop k) hs.stack }

theorem completed_relocated (hs : Relocated f s s') (hop : i.opcode = i'.opcode) :
    Relocated f (s.completed i) (s'.completed i') :=
  { hs with profile := hs.profile.record hop }

/-- The outcomes of two instructions are alike if those of their effects are. -/
theorem carryOut_of_perform {k : Nat} {e e' : Effect} (hop : i.opcode = i'.opcode)
    (hd : decision p s i = ⟨k, .ok e⟩) (hd' : decision p' s' i' = ⟨k, .ok e'⟩)
    (h : RelocatedOutcome f ((s.taking k).perform e) ((s'.taking k).perform e')) :
    RelocatedOutcome f (s.carryOut p i) (s'.carryOut p' i') := by
  unfold State.carryOut
  dsimp only
  rw [hd, hd']
  dsimp only
  generalize (s.taking k).perform e = o at h ⊢
  generalize (s'.taking k).perform e' = o' at h ⊢
  cases h with
  | next h => exact .next (completed_relocated h hop)
  | exit code h => exact .exit code (completed_relocated h hop)
  | fault cause h => exact .fault cause h

/-- **An instruction does the same in a relocated program**, up to places and diagnostics. -/
theorem carryOut_relocated (hs : Relocated f s s')
    (hlabels : ∀ name, p.labels.resolve? name = (p'.labels.resolve? name).map f)
    (hop : i.opcode = i'.opcode) (hargs : i.args = i'.args) :
    RelocatedOutcome f (s.carryOut p i) (s'.carryOut p' i') := by
  by_cases hb : i.opcode.operation = .breakpoint
  · -- The dumps differ, and so this is no case of a relocated decision.
    have hd : decision p s i = ⟨0, .ok (.diagnose s.dump)⟩ := by
      unfold decision
      rw [hb]
      rfl
    have hd' : decision p' s' i' = ⟨0, .ok (.diagnose s'.dump)⟩ := by
      unfold decision
      rw [← hop, hb]
      rfl
    exact carryOut_of_perform hop hd hd' (perform_diagnose_relocated (taking_relocated hs 0) _ _)
  · have hd : decision p s i = (decision p' s' i').relocate f := by
      unfold decision
      rw [decisionAs_relocated hs hlabels hb, decisionAs_congr hargs, hop]
    rcases hd' : decision p' s' i' with ⟨k, cause | e⟩
    · rw [hd'] at hd
      unfold State.carryOut
      dsimp only
      rw [hd, hd']
      exact .fault cause (taking_relocated hs k)
    · rw [hd'] at hd
      exact carryOut_of_perform hop hd hd' (perform_relocated (taking_relocated hs k) e)

end Machine

end FrameCode
