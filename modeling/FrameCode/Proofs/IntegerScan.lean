import FrameCode.Proofs.IntegerGrammar

/-!
# Integer literals in one pass

`int?` takes a literal apart and computes its number afterwards, with no bound on the way.
`scanInt?` does everything while it goes through the digits: it watches the underscores, remembers
whether a decimal literal starts with a zero, and keeps the number in a signed 128-bit word. Both
give the same word for every text (`scanInt?_eq`).

The state of the scan is a function of the digits seen so far and of whether the last character was
an underscore (`Scan.after`). So there is one induction, along the reader of separated digits, with
the digits before as its parameter (`Scan.foldlM_eq`). An overflow on the way ends the scan. It does
no harm: digits that follow never make the number smaller, and what exceeds 128 bits does not fit
the result.
-/

namespace FrameCode.Literal

open FrameCode.Text

variable {base m : Nat} {c : Char} {cs : List Char} {ds : List Nat}

namespace Scan

/-! ## The state of a scan -/

/-- The scan after some digits, right behind a digit or an underscore. -/
def after (base : Nat) (ds : List Nat) (underscore : Bool) : Scan :=
  ⟨valueOf base ds, ds.length, underscore, ds.head?, ds.all (· == 0)⟩

theorem valueOf_append_singleton (base : Nat) (ds : List Nat) (d : Nat) :
    valueOf base (ds ++ [d]) = valueOf base ds * base + d := by
  rw [valueOf, List.foldl_append]
  rfl

theorem valueOf_le_append (hbase : 0 < base) (ds ds' : List Nat) :
    valueOf base ds ≤ valueOf base (ds ++ ds') := by
  induction ds' generalizing ds with
  | nil => rw [List.append_nil]
  | cons d ds' ih =>
    have hsplit : ds ++ d :: ds' = (ds ++ [d]) ++ ds' := by
      rw [List.append_assoc, List.singleton_append]
    rw [hsplit]
    refine Nat.le_trans ?_ (ih (ds ++ [d]))
    rw [valueOf_append_singleton]
    exact Nat.le_trans (Nat.le_mul_of_pos_right _ hbase) (Nat.le_add_right ..)

/-- Two checks in a row are one, the sum being the larger number. -/
theorem checked_bind {n d : Nat} {f : Nat → Option Scan} :
    ((checked n).bind fun product => (checked (product + d)).bind f) =
      (checked (n + d)).bind f := by
  unfold checked
  by_cases hsum : n + d ≤ bound
  · have hn : n ≤ bound := by omega
    rw [if_pos hn, Option.bind_some]
  · by_cases hn : n ≤ bound
    · rw [if_pos hn, Option.bind_some]
    · rw [if_neg hn, if_neg hsum]
      rfl

theorem step_of_none (h : digitValue? base c = none) (s : Scan) (hs : s.afterUnderscore = true) :
    step base s c = none := by
  unfold step
  rw [hs, h]
  split
  · rfl
  · rfl

theorem after_append (base : Nat) (ds : List Nat) (d : Nat) :
    after base (ds ++ [d]) false =
      ⟨valueOf base ds * base + d, ds.length + 1, false, ds.head? <|> some d,
        ds.all (· == 0) && d == 0⟩ := by
  have hhead : (ds ++ [d]).head? = (ds.head? <|> some d) := by
    cases ds with
    | nil => rfl
    | cons d' ds => rfl
  have hall : (ds ++ [d]).all (· == 0) = (ds.all (· == 0) && d == 0) := by
    simp only [List.all_append, List.all_cons, List.all_nil, Bool.and_true]
  unfold after
  rw [valueOf_append_singleton, List.length_append, List.length_singleton, hhead, hall]

/-- One more digit is kept as long as the number stays within bounds. -/
theorem step_digit {d : Nat} (hbase : base ≤ 16) (h : digitValue? base c = some d) (ds : List Nat)
    (underscore : Bool) :
    step base (after base ds underscore) c =
      if valueOf base (ds ++ [d]) ≤ bound then some (after base (ds ++ [d]) false) else none := by
  have hc : c ≠ '_' := by
    rintro rfl
    exact (((digitValue?_eq_some_iff hbase).mp h).ne_mark hbase).2 (by decide)
  unfold step
  rw [if_neg hc, h]
  simp only [Option.bind_eq_bind, Option.bind_some, Option.pure_def]
  rw [checked_bind, after_append, valueOf_append_singleton]
  unfold checked after
  by_cases hsum : valueOf base ds * base + d ≤ bound
  · rw [if_pos hsum, if_pos hsum, Option.bind_some]
  · rw [if_neg hsum, if_neg hsum, Option.bind_none]

/-! ## A whole scan -/

/-- Behind a digit the scan goes on as at the start, unless an underscore comes. -/
theorem foldlM_after (base : Nat) (ds : List Nat) (hne : cs ≠ [])
    (hunderscore : ∀ rest, cs ≠ '_' :: rest) :
    cs.foldlM (step base) (after base ds false) = cs.foldlM (step base) (after base ds true) := by
  cases cs with
  | nil => exact absurd rfl hne
  | cons c rest =>
    have hc : c ≠ '_' := fun hc => hunderscore rest (by rw [hc])
    have hstep : step base (after base ds false) c = step base (after base ds true) c := by
      unfold step
      rw [if_neg hc, if_neg hc]
      rfl
    rw [List.foldlM_cons, List.foldlM_cons, hstep]

/-- The scan of a whole text of digits, if the number stays within bounds. -/
def bounded (base : Nat) (ds : List Nat) : Option Scan :=
  if valueOf base ds ≤ bound then some (after base ds false) else none

theorem bounded_eq_none (hbase : 0 < base) (h : ¬valueOf base ds ≤ bound) (ds' : List Nat) :
    bounded base (ds ++ ds') = none := by
  have hle := valueOf_le_append hbase ds ds'
  exact if_neg (by omega)

/-- A digit in front of what is scanned already. Once the number is out of bounds it stays there. -/
theorem foldlM_digit {d : Nat} {tail : List Char} {read : Option (List Nat)} (hpos : 0 < base)
    (hbase : base ≤ 16) (hd : digitValue? base c = some d) (ds : List Nat)
    (htail : (tail.foldlM (step base) (after base (ds ++ [d]) false)).filter
        (fun s => !s.afterUnderscore) = read.bind fun ds' => bounded base (ds ++ [d] ++ ds')) :
    ((c :: tail).foldlM (step base) (after base ds true)).filter (fun s => !s.afterUnderscore) =
      (do let ds' ← read; return d :: ds').bind fun ds' => bounded base (ds ++ ds') := by
  have hread : (do let ds' ← read; return d :: ds').bind (fun ds' => bounded base (ds ++ ds')) =
      read.bind fun ds' => bounded base (ds ++ [d] ++ ds') := by
    simp only [Option.bind_eq_bind, Option.pure_def, Option.bind_assoc, Option.bind_some,
      List.append_assoc, List.singleton_append]
  rw [List.foldlM_cons, step_digit hbase hd, hread]
  by_cases hvalue : valueOf base (ds ++ [d]) ≤ bound
  · rw [if_pos hvalue]
    exact htail
  · rw [if_neg hvalue]
    simp only [bounded_eq_none hpos hvalue, Option.bind_fun_none]
    rfl

/-- **One pass is enough.** From a place where a digit has to come, the scan ends behind a digit
exactly if single underscores separate the digits that follow and the number stays within bounds.
The induction is along the reader of separated digits; `ds` are the digits seen before. -/
theorem foldlM_eq (hpos : 0 < base) (hbase : base ≤ 16) (cs : List Char) (ds : List Nat) :
    (cs.foldlM (step base) (after base ds true)).filter (fun s => !s.afterUnderscore) =
      (separatedDigits? base cs).bind fun ds' => bounded base (ds ++ ds') := by
  induction cs using separatedDigits?.induct generalizing ds with
  | case1 => rfl
  | case2 c =>
    rcases hd : digitValue? base c with _ | d
    · rw [List.foldlM_cons, step_of_none hd _ rfl]
      simp [separatedDigits?, hd]
    · rw [List.foldlM_cons, step_digit hbase hd]
      simp only [separatedDigits?, hd, Option.map_some, Option.bind_some, bounded]
      split
      · rfl
      · rfl
  | case3 c rest ih =>
    rcases hd : digitValue? base c with _ | d
    · rw [List.foldlM_cons, step_of_none hd _ rfl]
      simp [separatedDigits?, hd]
    · have htail : (('_' :: rest).foldlM (step base) (after base (ds ++ [d]) false)).filter
          (fun s => !s.afterUnderscore) = _ := ih (ds ++ [d])
      rw [foldlM_digit hpos hbase hd ds htail, separatedDigits?, hd]
      rfl
  | case4 c rest hrest hnot ih =>
    rcases hd : digitValue? base c with _ | d
    · rw [List.foldlM_cons, step_of_none hd _ rfl]
      simp [separatedDigits?, hd]
    · have htail := ih (ds ++ [d])
      rw [← foldlM_after base (ds ++ [d]) hrest hnot] at htail
      rw [foldlM_digit hpos hbase hd ds htail, separatedDigits?, hd]
      · rfl
      · exact hrest
      · exact hnot

end Scan

/-! ## Numbers -/

theorem hasLeadingZero_iff (ds : List Nat) :
    hasLeadingZero ds = true ↔ 1 < ds.length ∧ ds.head? = some 0 ∧ ds.all (· == 0) = false := by
  have hall : ds.all (· == 0) = false ↔ ¬∀ d ∈ ds, d = 0 := by simp
  rw [← Bool.not_eq_false, hasLeadingZero_eq_false_iff, Classical.not_imp, hall]
  constructor
  · rintro ⟨hhead, hzero⟩
    refine ⟨?_, hhead, hzero⟩
    -- A zero that is not alone: otherwise all digits were zeros.
    match ds, hhead with
    | [_], hhead =>
      obtain rfl := Option.some.inj hhead
      exact absurd (by simp) hzero
    | _ :: _ :: _, _ => simp
  · exact fun h => h.2

/-- What a scan that ends behind a digit makes of the digits. -/
theorem number?_after (hne : ds ≠ []) :
    (Scan.after base ds false).number? base =
      if base = 10 ∧ hasLeadingZero ds then none else some (valueOf base ds) := by
  have hlength : ds.length ≠ 0 := fun h => hne (List.eq_nil_of_length_eq_zero h)
  have hcount : ¬(ds.length = 0 ∨ false = true) := by simp [hlength]
  unfold Scan.number? Scan.after
  rw [if_neg hcount]
  simp only [hasLeadingZero_iff, Bool.not_eq_true']

theorem Separated.ne_nil (h : Separated base cs ds) : ds ≠ [] := by
  cases h <;> exact List.cons_ne_nil _ _

/-- A scan that ends behind an underscore, or before the first digit, gives no number. -/
theorem scanDigits?_eq_filter (base : Nat) (cs : List Char) :
    scanDigits? base cs =
      ((cs.foldlM (Scan.step base) Scan.start).filter fun s => !s.afterUnderscore).bind
        (Scan.number? base) := by
  unfold scanDigits?
  rcases cs.foldlM (Scan.step base) Scan.start with _ | s
  · rfl
  · rw [Option.filter_some]
    by_cases hs : s.afterUnderscore = true
    · simp [Scan.number?, hs]
    · simp [hs]

theorem scanDigits?_eq (hpos : 0 < base) (hbase : base ≤ 16) (cs : List Char) :
    scanDigits? base cs =
      (separatedDigits? base cs).bind fun ds =>
        if base = 10 ∧ hasLeadingZero ds then none else Scan.checked (valueOf base ds) := by
  have hstart : Scan.start = Scan.after base [] true := rfl
  rw [scanDigits?_eq_filter, hstart, Scan.foldlM_eq hpos hbase cs []]
  rcases hds : separatedDigits? base cs with _ | ds
  · rfl
  · have hne := ((separatedDigits?_eq_some_iff hbase).mp hds).ne_nil
    rw [Option.bind_some, Option.bind_some, List.nil_append]
    unfold Scan.bounded Scan.checked
    by_cases hbound : valueOf base ds ≤ Scan.bound
    · rw [if_pos hbound, Option.bind_some, number?_after hne, if_pos hbound]
    · rw [if_neg hbound, Option.bind_none, if_neg hbound, ite_self]

/-- A decimal literal is scanned as its digits are read. -/
theorem scanDigits?_decimal (cs : List Char) :
    scanDigits? 10 cs = ((decimalDigits? cs).map (valueOf 10)).bind Scan.checked := by
  rw [scanDigits?_eq (by decide) (by decide), decimalDigits?]
  rcases separatedDigits? 10 cs with _ | ds
  · rfl
  · rw [Option.bind_some, Option.filter_some]
    by_cases hzero : hasLeadingZero ds = true
    · simp [hzero]
    · simp [hzero]

/-- Digits behind the mark of their base. -/
theorem scanDigits?_marked (h : markedBase? c = some base) (cs : List Char) :
    scanDigits? base (dropUnderscore true cs) =
      ((markedDigits? base cs).map (valueOf base)).bind Scan.checked := by
  have hmark := markedBase?_eq_some_iff.mp h
  have hbounds : ∀ mark ∈ baseMarks, 0 < mark.2 ∧ mark.2 ≠ 10 := by decide
  obtain ⟨hpos, hne⟩ := hbounds _ hmark
  have hdigits : separatedDigits? base (dropUnderscore true cs) = markedDigits? base cs := by
    unfold dropUnderscore markedDigits?
    split
    · rfl
    · rfl
  rw [scanDigits?_eq hpos (base_le_of_mem hmark), hdigits, Option.bind_map]
  simp only [hne, false_and, if_false, Function.comp_def]

theorem dropUnderscore_false (cs : List Char) : dropUnderscore false cs = cs := by
  unfold dropUnderscore
  split
  · rfl
  · rfl

theorem scanMagnitude?_eq (cs : List Char) :
    scanMagnitude? cs = (magnitude? cs).bind Scan.checked := by
  unfold scanMagnitude?
  fun_cases splitMark cs with
  | case1 c rest base hmark =>
    simp only [magnitude?, hmark]
    exact scanDigits?_marked hmark rest
  | case2 c rest hmark => simp only [magnitude?, hmark, dropUnderscore_false, scanDigits?_decimal]
  | case3 cs hnot =>
    rw [magnitude?]
    · simp only [dropUnderscore_false, scanDigits?_decimal]
    · exact hnot

/-! ## Words -/

/-- What overflows on the way does not fit in the end. -/
theorem fitsWord_of_checked (h : Scan.checked m = none) (negative : Bool) :
    fitsWord (if negative then -(m : Int) else (m : Int)) = false := by
  have hm : ¬m ≤ Scan.bound := by
    intro hle
    rw [Scan.checked, if_pos hle] at h
    cases h
  have hmin : Int64.minValue.toInt = -2 ^ 63 := by decide
  have hmax : Int64.maxValue.toInt = 2 ^ 63 - 1 := by decide
  unfold Scan.bound at hm
  rw [fitsWord, Bool.and_eq_false_iff, decide_eq_false_iff_not, decide_eq_false_iff_not, hmin, hmax]
  cases negative with
  | true =>
    simp only [if_true]
    omega
  | false =>
    simp only [Bool.false_eq_true, if_false]
    omega

/-- **Checked arithmetic loses no literal.** Scanning a text once, with a number that may overflow a
signed 128-bit word, reads the same integers as taking the text apart and computing without
bounds. -/
theorem scanInt?_eq (text : List Char) : scanInt? text = int? text := by
  unfold scanInt? int?
  rcases takeSign (trim text) with ⟨negative, body⟩
  simp only [scanMagnitude?_eq, Option.bind_eq_bind, Option.bind_assoc]
  rcases magnitude? body with _ | m
  · rfl
  · rw [Option.bind_some, Option.bind_some]
    rcases hchecked : Scan.checked m with _ | n
    · rw [Option.bind_none, fitsWord_of_checked hchecked, if_neg Bool.false_ne_true]
    · have hn : n = m := by
        unfold Scan.checked at hchecked
        split at hchecked
        · exact (Option.some.inj hchecked).symm
        · cases hchecked
      rw [Option.bind_some, hn]

end FrameCode.Literal
