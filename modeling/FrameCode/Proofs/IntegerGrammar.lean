import FrameCode.Proofs.IntegerNotation
import FrameCode.Proofs.Numerals

/-!
# The grammar of integer literals

An integer literal is a sign and digits with blanks around them. `IntegerLiteral text z` gives the
grammar and the integer that each literal denotes, on its own and not through the reader: digits may
have single underscores between them (`Separated`), a decimal literal starts with a zero only if all
its digits are zeros, and digits of another base follow the mark of this base, possibly with one
underscore between (`Unsigned`).

Reading accepts exactly these literals, as long as the integer fits a word, and gives the integer
that is denoted (`int?_exact`). Both directions follow the recursion of the reader: at each place a
digit, and behind it nothing, an underscore or the next digit.
-/

namespace FrameCode.Literal

open FrameCode.Text

variable {base m : Nat} {c : Char} {cs text : List Char} {ds : List Nat}

/-! ## The grammar -/

/-- Digits of a base, the most significant one first, with single underscores between some of
them. -/
inductive Separated (base : Nat) : List Char → List Nat → Prop
  | last {c : Char} {d : Nat} (h : DigitChar base c d) : Separated base [c] [d]
  | next {c : Char} {d : Nat} {cs : List Char} {ds : List Nat} (h : DigitChar base c d)
    (hrest : Separated base cs ds) : Separated base (c :: cs) (d :: ds)
  | spaced {c : Char} {d : Nat} {cs : List Char} {ds : List Nat} (h : DigitChar base c d)
    (hrest : Separated base cs ds) : Separated base (c :: '_' :: cs) (d :: ds)

/-- The letters that announce a base behind a zero. -/
def baseMarks : List (Char × Nat) :=
  [('x', 16), ('X', 16), ('o', 8), ('O', 8), ('b', 2), ('B', 2)]

/-- The literals without a sign, and the number that each denotes. -/
inductive Unsigned : List Char → Nat → Prop
  | decimal {cs : List Char} {ds : List Nat} (h : Separated 10 cs ds)
    (hzero : ds.head? = some 0 → ∀ d ∈ ds, d = 0) : Unsigned cs (Nat.ofDigits 10 ds.reverse)
  | marked {base : Nat} {c : Char} {cs : List Char} {ds : List Nat} (hmark : (c, base) ∈ baseMarks)
    (h : Separated base cs ds) : Unsigned ('0' :: c :: cs) (Nat.ofDigits base ds.reverse)
  | markedSpaced {base : Nat} {c : Char} {cs : List Char} {ds : List Nat}
    (hmark : (c, base) ∈ baseMarks) (h : Separated base cs ds) :
    Unsigned ('0' :: c :: '_' :: cs) (Nat.ofDigits base ds.reverse)

/-- The integer literals, and the integer that each denotes. -/
inductive IntegerLiteral : List Char → Int → Prop
  | unsigned {text sign body : List Char} {m : Nat} (hsign : Sign sign false)
    (h : Unsigned body m) (htext : Surrounds text (sign ++ body)) : IntegerLiteral text m
  | negative {text sign body : List Char} {m : Nat} (hsign : Sign sign true)
    (h : Unsigned body m) (htext : Surrounds text (sign ++ body)) : IntegerLiteral text (-m)

/-! ## Separated digits -/

theorem Separated.exists_head (h : Separated base cs ds) :
    ∃ c d rest, cs = c :: rest ∧ DigitChar base c d := by
  cases h with
  | last h => exact ⟨_, _, _, rfl, h⟩
  | next h => exact ⟨_, _, _, rfl, h⟩
  | spaced h => exact ⟨_, _, _, rfl, h⟩

theorem Separated.isBlank (h : Separated base cs ds) (hbase : base ≤ 16) :
    ∀ c ∈ cs, isBlank c = false := by
  induction h with
  | last h =>
    intro c hc
    rw [List.mem_singleton.mp hc]
    exact (h.ne_mark hbase).1
  | next h _ ih =>
    intro c hc
    rcases List.mem_cons.mp hc with rfl | hc
    · exact (h.ne_mark hbase).1
    · exact ih c hc
  | spaced h _ ih =>
    intro c hc
    rcases List.mem_cons.mp hc with rfl | hc
    · exact (h.ne_mark hbase).1
    · rcases List.mem_cons.mp hc with rfl | hc
      · rfl
      · exact ih c hc

/-- Behind a digit that is not the last one there is no underscore, or exactly one. -/
theorem Separated.ne_underscore (h : Separated base ('_' :: cs) ds) (hbase : base ≤ 16) :
    False := by
  obtain ⟨c, d, rest, hcs, hc⟩ := h.exists_head
  obtain ⟨rfl, -⟩ := List.cons.inj hcs
  exact (hc.ne_mark hbase).2 (by decide)

theorem separated_of_separatedDigits? (hbase : base ≤ 16)
    (h : separatedDigits? base cs = some ds) : Separated base cs ds := by
  induction cs using separatedDigits?.induct generalizing ds with
  | case1 => cases h
  | case2 c =>
    rw [separatedDigits?, Option.map_eq_some_iff] at h
    obtain ⟨d, hd, rfl⟩ := h
    exact .last ((digitValue?_eq_some_iff hbase).mp hd)
  | case3 c rest ih =>
    simp only [separatedDigits?, Option.bind_eq_bind, Option.bind_eq_some_iff, Option.pure_def,
      Option.some.injEq] at h
    obtain ⟨d, hd, ds', hds, rfl⟩ := h
    exact .spaced ((digitValue?_eq_some_iff hbase).mp hd) (ih hds)
  | case4 c rest hrest hnot ih =>
    rw [separatedDigits?] at h
    · simp only [Option.bind_eq_bind, Option.bind_eq_some_iff, Option.pure_def,
        Option.some.injEq] at h
      obtain ⟨d, hd, ds', hds, rfl⟩ := h
      exact .next ((digitValue?_eq_some_iff hbase).mp hd) (ih hds)
    · exact hrest
    · exact hnot

theorem Separated.separatedDigits? (h : Separated base cs ds) (hbase : base ≤ 16) :
    separatedDigits? base cs = some ds := by
  induction h with
  | last h => simp [Literal.separatedDigits?, (digitValue?_eq_some_iff hbase).mpr h]
  | next h hrest ih =>
    -- The next character is a digit too, so the reader neither stops nor skips one.
    rw [Literal.separatedDigits?, (digitValue?_eq_some_iff hbase).mpr h, ih]
    · rfl
    · rintro rfl
      obtain ⟨c, d, rest, hcs, -⟩ := hrest.exists_head
      cases hcs
    · rintro rest rfl
      exact hrest.ne_underscore hbase
  | spaced h _ ih =>
    rw [Literal.separatedDigits?, (digitValue?_eq_some_iff hbase).mpr h, ih]
    rfl

theorem separatedDigits?_eq_some_iff (hbase : base ≤ 16) :
    separatedDigits? base cs = some ds ↔ Separated base cs ds :=
  ⟨separated_of_separatedDigits? hbase, fun h => h.separatedDigits? hbase⟩

/-! ## Bases and leading zeros -/

theorem markedBase?_eq_some_iff : markedBase? c = some base ↔ (c, base) ∈ baseMarks := by
  constructor
  · intro h
    unfold markedBase? at h
    have hcase := eq_or_eq_toUpper c
    split at h
    · rename_i hx
      obtain rfl := Option.some.inj h
      rw [hx] at hcase
      rcases hcase with rfl | rfl <;> decide
    · rename_i ho
      obtain rfl := Option.some.inj h
      rw [ho] at hcase
      rcases hcase with rfl | rfl <;> decide
    · rename_i hb
      obtain rfl := Option.some.inj h
      rw [hb] at hcase
      rcases hcase with rfl | rfl <;> decide
    · cases h
  · have hall : ∀ mark ∈ baseMarks, markedBase? mark.1 = some mark.2 := by decide
    exact fun h => hall (c, base) h

theorem base_le_of_mem (h : (c, base) ∈ baseMarks) : base ≤ 16 := by
  have hall : ∀ mark ∈ baseMarks, mark.2 ≤ 16 := by decide
  exact hall (c, base) h

theorem isBlank_of_mem (h : (c, base) ∈ baseMarks) : isBlank c = false := by
  have hall : ∀ mark ∈ baseMarks, isBlank mark.1 = false := by decide
  have hc := hall (c, base) h
  exact hc

/-- What stands behind the first digit of a decimal literal announces no base. -/
theorem markedBase?_of_decimal {first : Char} (h : Separated 10 (first :: c :: cs) ds) :
    markedBase? c = none := by
  have hdigit : ∀ d < 10,
      markedBase? d.digitChar = none ∧ markedBase? d.digitChar.toUpper = none := by
    decide
  cases h with
  | spaced => rfl
  | next _ hrest =>
    obtain ⟨c', d, rest, hcs, hc⟩ := hrest.exists_head
    obtain ⟨rfl, -⟩ := List.cons.inj hcs
    obtain ⟨hsmall, hcapital⟩ := hdigit d hc.lt
    rcases hc.char with rfl | rfl
    · exact hsmall
    · exact hcapital

theorem hasLeadingZero_eq_false_iff :
    hasLeadingZero ds = false ↔ (ds.head? = some 0 → ∀ d ∈ ds, d = 0) := by
  unfold hasLeadingZero
  split
  · simp
  · rename_i hne
    cases ds with
    | nil => simp
    | cons d ds =>
      have hd : d ≠ 0 := by
        rintro rfl
        exact hne ds rfl
      simp [hd]

theorem decimalDigits?_eq_some_iff :
    decimalDigits? cs = some ds ↔
      Separated 10 cs ds ∧ (ds.head? = some 0 → ∀ d ∈ ds, d = 0) := by
  unfold decimalDigits?
  rw [Option.filter_eq_some_iff, separatedDigits?_eq_some_iff (by decide), Bool.not_eq_true',
    hasLeadingZero_eq_false_iff]

/-! ## Numbers without a sign -/

theorem unsigned_of_decimalDigits? (h : (decimalDigits? cs).map (valueOf 10) = some m) :
    Unsigned cs m := by
  obtain ⟨ds, hds, rfl⟩ := Option.map_eq_some_iff.mp h
  obtain ⟨hseparated, hzero⟩ := decimalDigits?_eq_some_iff.mp hds
  rw [valueOf_eq_ofDigits]
  exact .decimal hseparated hzero

theorem unsigned_of_markedDigits? (hmark : (c, base) ∈ baseMarks)
    (h : (markedDigits? base cs).map (valueOf base) = some m) : Unsigned ('0' :: c :: cs) m := by
  have hbase := base_le_of_mem hmark
  obtain ⟨ds, hds, rfl⟩ := Option.map_eq_some_iff.mp h
  rw [valueOf_eq_ofDigits]
  unfold markedDigits? at hds
  split at hds
  · exact .markedSpaced hmark ((separatedDigits?_eq_some_iff hbase).mp hds)
  · exact .marked hmark ((separatedDigits?_eq_some_iff hbase).mp hds)

theorem unsigned_of_magnitude? (h : magnitude? cs = some m) : Unsigned cs m := by
  unfold magnitude? at h
  split at h
  · rename_i c rest
    split at h
    · rename_i base hbase
      exact unsigned_of_markedDigits? (markedBase?_eq_some_iff.mp hbase) h
    · exact unsigned_of_decimalDigits? h
  · exact unsigned_of_decimalDigits? h

theorem magnitude?_of_marked (hmark : (c, base) ∈ baseMarks)
    (h : markedDigits? base cs = some ds) :
    magnitude? ('0' :: c :: cs) = some (Nat.ofDigits base ds.reverse) := by
  simp only [magnitude?, markedBase?_eq_some_iff.mpr hmark, h, Option.map_some, valueOf_eq_ofDigits]

theorem Unsigned.magnitude? (h : Unsigned cs m) : magnitude? cs = some m := by
  cases h with
  | @decimal cs ds h hzero =>
    have hread : (decimalDigits? cs).map (valueOf 10) = some (Nat.ofDigits 10 ds.reverse) := by
      rw [decimalDigits?_eq_some_iff.mpr ⟨h, hzero⟩, Option.map_some, valueOf_eq_ofDigits]
    unfold Literal.magnitude?
    split
    · rw [markedBase?_of_decimal h]
      exact hread
    · exact hread
  | @marked base c cs ds hmark h =>
    have hbase := base_le_of_mem hmark
    refine magnitude?_of_marked hmark ?_
    unfold markedDigits?
    split
    · exact (h.ne_underscore hbase).elim
    · exact h.separatedDigits? hbase
  | markedSpaced hmark h =>
    exact magnitude?_of_marked hmark (h.separatedDigits? (base_le_of_mem hmark))

theorem magnitude?_eq_some_iff : magnitude? cs = some m ↔ Unsigned cs m :=
  ⟨unsigned_of_magnitude?, Unsigned.magnitude?⟩

/-- A literal starts with a digit, and no blank stands in it. -/
theorem Unsigned.bare (h : Unsigned cs m) : Bare cs := by
  cases h with
  | decimal h _ =>
    refine ⟨?_, h.isBlank (by decide)⟩
    obtain ⟨c, d, rest, rfl, hc⟩ := h.exists_head
    have hne := (hc.ne_mark (by decide)).2
    refine ⟨c, rest, rfl, ?_, ?_⟩
    · rintro rfl
      exact hne (by decide)
    · rintro rfl
      exact hne (by decide)
  | marked hmark h =>
    refine ⟨⟨_, _, rfl, by decide, by decide⟩, ?_⟩
    simp only [List.forall_mem_cons]
    exact ⟨rfl, isBlank_of_mem hmark, h.isBlank (base_le_of_mem hmark)⟩
  | markedSpaced hmark h =>
    refine ⟨⟨_, _, rfl, by decide, by decide⟩, ?_⟩
    simp only [List.forall_mem_cons]
    exact ⟨rfl, isBlank_of_mem hmark, rfl, h.isBlank (base_le_of_mem hmark)⟩

/-! ## Words -/

/-- What is read from a literal once its number is known. -/
theorem int?_of_surrounds {sign body : List Char} {negative : Bool} {n : Int64}
    (hsign : Sign sign negative) (h : Unsigned body m) (htext : Surrounds text (sign ++ body))
    (hn : n.toInt = if negative then -(m : Int) else (m : Int)) : int? text = some n := by
  unfold int?
  rw [takeSign_trim hsign h.bare htext]
  simp only [h.magnitude?, Option.bind_some, ← hn, fitsWord_toInt, if_true, n.ofInt_toInt]

theorem toInt_ofInt_of_fitsWord {z : Int} (h : fitsWord z = true) : (Int64.ofInt z).toInt = z := by
  rw [fitsWord, Bool.and_eq_true, decide_eq_true_eq, decide_eq_true_eq] at h
  have hmin : Int64.minValue.toInt = -2 ^ 63 := by decide
  have hmax : Int64.maxValue.toInt = 2 ^ 63 - 1 := by decide
  refine Int64.toInt_ofInt_of_le ?_ ?_
  · rw [← hmin]
    exact h.1
  · omega

theorem integerLiteral_of_int? {n : Int64} (h : int? text = some n) :
    IntegerLiteral text n.toInt := by
  rcases htake : takeSign (trim text) with ⟨negative, body⟩
  obtain ⟨sign, hsign, hsurrounds⟩ := exists_surrounds htake
  unfold int? at h
  rw [htake] at h
  dsimp only at h
  obtain ⟨m, hm, h⟩ := Option.bind_eq_some_iff.mp h
  have hunsigned := magnitude?_eq_some_iff.mp hm
  by_cases hfits : fitsWord (if negative then -(m : Int) else (m : Int)) = true
  · rw [if_pos hfits] at h
    obtain rfl := Option.some.inj h
    rw [toInt_ofInt_of_fitsWord hfits]
    cases negative with
    | true => exact .negative hsign hunsigned hsurrounds
    | false => exact .unsigned hsign hunsigned hsurrounds
  · rw [if_neg hfits] at h
    cases h

/-- **Integer literals.** A text is read as an integer exactly if it is a literal that denotes this
integer, and the integer is one of the signed 64-bit words; and every word is read back from its
decimal text. -/
theorem int?_exact :
    (∀ (text : List Char) (z : Int), (∃ n, int? text = some n ∧ n.toInt = z) ↔
      IntegerLiteral text z ∧ -2 ^ 63 ≤ z ∧ z ≤ 2 ^ 63 - 1) ∧
      ∀ n : Int64, int? (decimal n.toInt).toList = some n := by
  refine ⟨fun text z => ⟨?_, ?_⟩, int?_decimal⟩
  · rintro ⟨n, h, rfl⟩
    exact ⟨integerLiteral_of_int? h, n.le_toInt, Int.le_sub_one_of_lt n.toInt_lt⟩
  · rintro ⟨h, hlow, hhigh⟩
    have hz : (Int64.ofInt z).toInt = z :=
      Int64.toInt_ofInt_of_le hlow (Int.lt_of_le_sub_one hhigh)
    refine ⟨Int64.ofInt z, ?_, hz⟩
    cases h with
    | unsigned hsign h htext => exact int?_of_surrounds hsign h htext hz
    | negative hsign h htext => exact int?_of_surrounds hsign h htext hz

end FrameCode.Literal
