/-!
# Sequences of checks

Deciding an instruction and loading a document are both sequences of checks in `Except`: the first
check that fails gives the error of the whole, and the whole succeeds if every check does. The
lemmas here take such a sequence apart, one check at a time, and follow it through a list. Tables
are lists of pairs, and looking a key up is a sequence of comparisons of the same kind.
-/

namespace FrameCode.Checks

variable {ε α β : Type}

/-! ## One check before the rest -/

@[simp] theorem ok_bind (a : α) (f : α → Except ε β) : (Except.ok a >>= f) = f a := rfl

@[simp] theorem error_bind (e : ε) (f : α → Except ε β) :
    ((Except.error e : Except ε α) >>= f) = .error e := rfl

@[simp] theorem pure_eq (a : α) : (pure a : Except ε α) = .ok a := rfl

/-- A check and the rest succeed exactly if both do. -/
theorem bind_eq_ok {x : Except ε α} {f : α → Except ε β} {b : β} :
    (x >>= f) = .ok b ↔ ∃ a, x = .ok a ∧ f a = .ok b := by
  cases x with
  | error e => simp
  | ok a => simp

/-- A check and the rest fail exactly if the check does, or it succeeds and the rest fails. -/
theorem bind_eq_error {x : Except ε α} {f : α → Except ε β} {e : ε} :
    (x >>= f) = .error e ↔ x = .error e ∨ ∃ a, x = .ok a ∧ f a = .error e := by
  cases x with
  | error e => simp
  | ok a => simp

theorem map_eq_ok {x : Except ε α} {g : α → β} {b : β} :
    x.map g = .ok b ↔ ∃ a, x = .ok a ∧ g a = b := by
  cases x with
  | error e => simp [Except.map]
  | ok a => simp [Except.map]

theorem map_eq_error {x : Except ε α} {g : α → β} {e : ε} :
    x.map g = .error e ↔ x = .error e := by
  cases x with
  | error e => simp [Except.map]
  | ok a => simp [Except.map]

theorem map_after_bind {γ : Type} (x : Except ε α) (f : α → Except ε β) (g : β → γ) :
    (x >>= f).map g = x >>= fun a => (f a).map g := by
  cases x with
  | error e => rfl
  | ok a => rfl

theorem bind_after_map {γ : Type} (x : Except ε α) (g : α → β) (f : β → Except ε γ) :
    (x.map g >>= f) = x >>= fun a => f (g a) := by
  cases x with
  | error e => rfl
  | ok a => rfl

theorem eq_ok_of_toOption {x : Except ε α} {a : α} (h : x.toOption = some a) : x = .ok a := by
  cases x with
  | error e => cases h
  | ok b => exact congrArg Except.ok (Option.some.inj h)

/-! ## The errors that a check can give -/

/-- Every error that a check can give is of one kind. -/
def FailsOnly (kind : ε → Prop) (x : Except ε α) : Prop :=
  ∀ e, x = .error e → kind e

variable {kind : ε → Prop}

theorem failsOnly_ok (a : α) : FailsOnly kind (.ok a : Except ε α) := by
  intro e h
  cases h

theorem failsOnly_error {e : ε} (he : kind e) : FailsOnly kind (.error e : Except ε α) := by
  intro e' h
  cases h
  exact he

/-- The errors of a sequence are those of its parts; the rest may rely on the check before it. -/
theorem failsOnly_bind {x : Except ε α} {f : α → Except ε β} (hx : FailsOnly kind x)
    (hf : ∀ a, x = .ok a → FailsOnly kind (f a)) : FailsOnly kind (x >>= f) := by
  intro e h
  rcases bind_eq_error.mp h with h | ⟨a, ha, h⟩
  · exact hx e h
  · exact hf a ha e h

theorem failsOnly_map {x : Except ε α} {g : α → β} (hx : FailsOnly kind x) :
    FailsOnly kind (x.map g) := by
  intro e h
  exact hx e (map_eq_error.mp h)

theorem FailsOnly.mono {kind' : ε → Prop} {x : Except ε α} (hx : FailsOnly kind x)
    (h : ∀ e, kind e → kind' e) : FailsOnly kind' x := by
  intro e he
  exact h e (hx e he)

/-! ## A check for each entry of a list -/

/-- If every entry of a list passes, each result comes from an entry. -/
theorem exists_of_mem_mapM {f : α → Except ε β} {xs : List α} {ys : List β}
    (h : xs.mapM f = .ok ys) {y : β} (hy : y ∈ ys) : ∃ x ∈ xs, f x = .ok y := by
  induction xs generalizing ys with
  | nil =>
    rw [List.mapM_nil] at h
    cases h
    cases hy
  | cons x xs ih =>
    rw [List.mapM_cons, bind_eq_ok] at h
    obtain ⟨z, hz, h⟩ := h
    rw [bind_eq_ok] at h
    obtain ⟨zs, hzs, h⟩ := h
    cases h
    rcases List.mem_cons.mp hy with rfl | hy
    · exact ⟨x, List.mem_cons_self .., hz⟩
    · obtain ⟨w, hw, hwy⟩ := ih hzs hy
      exact ⟨w, List.mem_cons_of_mem _ hw, hwy⟩

/-- A list passes exactly if each of its entries does. -/
theorem mapM_isOk_iff {f : α → Except ε β} {xs : List α} :
    (∃ ys, xs.mapM f = .ok ys) ↔ ∀ x ∈ xs, ∃ y, f x = .ok y := by
  induction xs with
  | nil => simp
  | cons x xs ih =>
    simp only [List.mapM_cons, List.forall_mem_cons, ← ih, bind_eq_ok, pure_eq]
    constructor
    · rintro ⟨_, y, hy, ys, hys, -⟩
      exact ⟨⟨y, hy⟩, ys, hys⟩
    · rintro ⟨⟨y, hy⟩, ys, hys⟩
      exact ⟨y :: ys, y, hy, ys, hys, rfl⟩

/-- The errors of a list of checks are those of its entries. -/
theorem failsOnly_mapM {f : α → Except ε β} (hf : ∀ x, FailsOnly kind (f x)) (xs : List α) :
    FailsOnly kind (xs.mapM f) := by
  induction xs with
  | nil =>
    rw [List.mapM_nil]
    exact failsOnly_ok _
  | cons x xs ih =>
    rw [List.mapM_cons]
    exact failsOnly_bind (hf x) fun _ _ => failsOnly_bind ih fun _ _ => failsOnly_ok _

theorem failsOnly_foldlM {f : β → α → Except ε β} (hf : ∀ b x, FailsOnly kind (f b x))
    (xs : List α) (b : β) : FailsOnly kind (xs.foldlM f b) := by
  induction xs generalizing b with
  | nil =>
    rw [List.foldlM_nil]
    exact failsOnly_ok _
  | cons x xs ih =>
    rw [List.foldlM_cons]
    exact failsOnly_bind (hf b x) fun c _ => ih c

/-- What holds before a list is gone through, and is passed on by each entry with the number of
entries so far, holds at the end with the length of the list. -/
theorem foldlM_counted {f : β → α → Except ε β} {motive : Nat → β → Prop}
    (hstep : ∀ n b x c, motive n b → f b x = .ok c → motive (n + 1) c) {xs : List α} {b c : β}
    {n : Nat} (hb : motive n b) (h : xs.foldlM f b = .ok c) : motive (n + xs.length) c := by
  induction xs generalizing b n with
  | nil =>
    rw [List.foldlM_nil] at h
    cases h
    exact hb
  | cons x xs ih =>
    rw [List.foldlM_cons, bind_eq_ok] at h
    obtain ⟨d, hd, h⟩ := h
    have hlen : n + (x :: xs).length = n + 1 + xs.length := by
      rw [List.length_cons]
      omega
    rw [hlen]
    exact ih (hstep n b x d hb hd) h

/-- Going through a list fails at the first entry that fails after those in front of it. -/
theorem foldlM_eq_error_iff {f : β → α → Except ε β} {xs : List α} {b : β} {e : ε} :
    xs.foldlM f b = .error e ↔
      ∃ n x c, xs[n]? = some x ∧ (xs.take n).foldlM f b = .ok c ∧ f c x = .error e := by
  induction xs generalizing b with
  | nil => simp
  | cons y ys ih =>
    rw [List.foldlM_cons, bind_eq_error]
    constructor
    · rintro (h | ⟨c, hc, h⟩)
      · exact ⟨0, y, b, rfl, rfl, h⟩
      · obtain ⟨n, x, d, hx, hd, he⟩ := ih.mp h
        refine ⟨n + 1, x, d, hx, ?_, he⟩
        rw [List.take_succ_cons, List.foldlM_cons, hc]
        exact hd
    · rintro ⟨n, x, d, hx, hd, he⟩
      cases n with
      | zero =>
        cases hx
        cases hd
        exact .inl he
      | succ n =>
        rw [List.take_succ_cons, List.foldlM_cons, bind_eq_ok] at hd
        obtain ⟨c, hc, hd⟩ := hd
        exact .inr ⟨c, hc, ih.mpr ⟨n, x, d, hx, hd, he⟩⟩

/-! ## Tables -/

/-- Looking a key up compares it with the first one before the rest. -/
theorem lookup_cons_ite {κ : Type} [DecidableEq κ] (k k' : κ) (b : β) (l : List (κ × β)) :
    ((k', b) :: l).lookup k = if k = k' then some b else l.lookup k := by
  rw [List.lookup_cons]
  by_cases h : k = k'
  · rw [if_pos h, h, beq_self_eq_true]
  · rw [if_neg h, beq_eq_false_iff_ne.mpr h]

end FrameCode.Checks
