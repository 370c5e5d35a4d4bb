import FrameCode.Proofs.Significands

/-!
# The grammar of hexadecimal notation

A number in hexadecimal notation is a sign and one of two bodies, with blanks around them. A body is
the name of an infinity or of NaN (`NamedForm`), or it is in digits (`DigitForm`): an optional `0x`,
hexadecimal digits with a point anywhere among them, and an optional binary exponent. The digits
before and after the point and the exponent are indices of the grammar, so the exact value that is
written is a function of them (`writtenValue`).

Reading accepts exactly these literals, and the size of a written exponent is all that the `cut` of
the reader can change (`ofHexWith?_digits`). With the exponent as it is written, the number that is
read is the one nearest to 53 significant bits of the exact value, and no other one
(`ofHex?_exact`). Significands are cut twice, first at the mark of the exponent and then at the
point; no hexadecimal digit is one of these characters, so each cut finds the part that was written.
-/

namespace FrameCode.Binary64

open FrameCode.Text

variable {cs body text sign : List Char} {before after ds : List ℕ} {e : ℤ} {negative : Bool}
  {x y : Binary64} {c : Char} {cut : ℕ → ℕ}

/-! ## The grammar -/

/-- The mark in front of the digits, which may be missing. -/
inductive HexMark : List Char → Prop
  | none : HexMark []
  | small : HexMark ['0', 'x']
  | capital : HexMark ['0', 'X']

/-- Hexadecimal digits before and after an optional point. -/
inductive Places : List Char → List ℕ → List ℕ → Prop
  | whole {cs : List Char} {before : List ℕ} (h : List.Forall₂ (DigitChar 16) cs before) :
    Places cs before []
  | pointed {cs cs' : List Char} {before after : List ℕ}
    (hbefore : List.Forall₂ (DigitChar 16) cs before)
    (hafter : List.Forall₂ (DigitChar 16) cs' after) : Places (cs ++ '.' :: cs') before after

/-- The exponent: a letter, a sign and decimal digits, or nothing at all. -/
inductive ExponentPart : List Char → ℤ → Prop
  | none : ExponentPart [] 0
  | written {mark : Char} {sign cs : List Char} {ds : List ℕ} {negative : Bool}
    (hmark : mark = 'p' ∨ mark = 'P') (hsign : Sign sign negative) (hne : cs ≠ [])
    (h : List.Forall₂ (DigitChar 10) cs ds) :
    ExponentPart (mark :: (sign ++ cs))
      (if negative then -(Nat.ofDigits 10 ds.reverse : ℕ) else (Nat.ofDigits 10 ds.reverse : ℕ))

/-- A body in digits, of which there is at least one. -/
inductive DigitForm : List Char → List ℕ → List ℕ → ℤ → Prop
  | intro {mark places exponent : List Char} {before after : List ℕ} {e : ℤ} (hmark : HexMark mark)
    (hplaces : Places places before after) (hne : before ++ after ≠ [])
    (hexponent : ExponentPart exponent e) : DigitForm (mark ++ (places ++ exponent)) before after e

/-- A body that is a name, in letters of any case, and the number of this name. -/
inductive NamedForm (negative : Bool) : List Char → Binary64 → Prop
  | inf {body : List Char} (h : body.map Char.toLower = ['i', 'n', 'f']) :
    NamedForm negative body (infinity negative)
  | infinity {body : List Char}
    (h : body.map Char.toLower = ['i', 'n', 'f', 'i', 'n', 'i', 't', 'y']) :
    NamedForm negative body (infinity negative)
  | nan {body : List Char} (h : body.map Char.toLower = ['n', 'a', 'n']) :
    NamedForm negative body nan

/-- The literals in digits, with what they are made of. -/
def DigitLiteral (text : List Char) (negative : Bool) (before after : List ℕ) (e : ℤ) : Prop :=
  ∃ sign body, Sign sign negative ∧ DigitForm body before after e ∧ Surrounds text (sign ++ body)

/-- The literals that are names, with the numbers they name. -/
def NamedLiteral (text : List Char) (x : Binary64) : Prop :=
  ∃ sign negative body, Sign sign negative ∧ NamedForm negative body x ∧
    Surrounds text (sign ++ body)

/-! ## The characters of a literal -/

/-- A character that is not a blank, and is a mark only if it is one of the given ones. -/
structure Plain (allowed : List Char) (c : Char) : Prop where
  isBlank : isBlank c = false
  mem : c ∈ marks → c ∈ allowed

variable {allowed : List Char}

theorem Plain.mono {more : List Char} (h : Plain allowed c) (hmore : allowed ⊆ more) :
    Plain more c :=
  ⟨h.isBlank, fun hc => hmore (h.mem hc)⟩

theorem Plain.ne {d : Char} (h : Plain allowed c) (hd : d ∈ marks) (hnot : d ∉ allowed) :
    c ≠ d := by
  rintro rfl
  exact hnot (h.mem hd)

/-- Digits are no marks. -/
theorem plain_of_digits {base : ℕ} (h : List.Forall₂ (DigitChar base) cs ds) (hbase : base ≤ 16)
    (hc : c ∈ cs) : Plain [] c := by
  obtain ⟨i, hi, rfl⟩ := List.getElem_of_mem hc
  have hlength := h.length_eq
  obtain ⟨hblank, hmarks⟩ := (h.get hi (by omega)).ne_mark hbase
  exact ⟨hblank, fun hmark => absurd hmark hmarks⟩

theorem HexMark.plain (h : HexMark cs) (hc : c ∈ cs) : Plain ['x', 'X'] c := by
  cases h with
  | none => cases hc
  | small =>
    rcases List.mem_cons.mp hc with rfl | hc
    · exact ⟨rfl, by decide⟩
    · rw [List.mem_singleton.mp hc]
      exact ⟨rfl, by decide⟩
  | capital =>
    rcases List.mem_cons.mp hc with rfl | hc
    · exact ⟨rfl, by decide⟩
    · rw [List.mem_singleton.mp hc]
      exact ⟨rfl, by decide⟩

theorem Places.plain (h : Places cs before after) (hc : c ∈ cs) : Plain ['.'] c := by
  cases h with
  | whole h => exact (plain_of_digits h le_rfl hc).mono (by simp)
  | pointed hbefore hafter =>
    rcases List.mem_append.mp hc with hc | hc
    · exact (plain_of_digits hbefore le_rfl hc).mono (by simp)
    · rcases List.mem_cons.mp hc with rfl | hc
      · exact ⟨rfl, by decide⟩
      · exact (plain_of_digits hafter le_rfl hc).mono (by simp)

theorem plain_of_sign (h : Sign sign negative) (hc : c ∈ sign) : Plain ['+', '-'] c := by
  refine ⟨h.isBlank hc, fun _ => ?_⟩
  cases h with
  | none => cases hc
  | plus =>
    rw [List.mem_singleton.mp hc]
    decide
  | minus =>
    rw [List.mem_singleton.mp hc]
    decide

/-- An exponent is made of its letter, signs and digits. -/
theorem plain_of_exponent {mark : Char} (hmark : Plain allowed mark) (hsign : Sign sign negative)
    (h : List.Forall₂ (DigitChar 10) cs ds) (hc : c ∈ mark :: (sign ++ cs)) :
    Plain (allowed ++ ['+', '-']) c := by
  rcases List.mem_cons.mp hc with rfl | hc
  · exact hmark.mono (by simp)
  · rcases List.mem_append.mp hc with hc | hc
    · exact (plain_of_sign hsign hc).mono (by simp)
    · exact (plain_of_digits h (by decide) hc).mono (by simp)

theorem ExponentPart.plain (h : ExponentPart cs e) (hc : c ∈ cs) :
    Plain ['p', 'P', '+', '-'] c := by
  cases h with
  | none => cases hc
  | @written mark _ _ _ _ hmark hsign hne h =>
    have hletter : Plain ['p', 'P'] mark := by
      rcases hmark with rfl | rfl
      · exact ⟨rfl, by decide⟩
      · exact ⟨rfl, by decide⟩
    exact plain_of_exponent hletter hsign h hc

theorem plain_of_parts {places exponent : List Char} (hplaces : Places places before after)
    (hexponent : ExponentPart exponent e) (hc : c ∈ places ++ exponent) :
    Plain ['.', 'p', 'P', '+', '-'] c := by
  rcases List.mem_append.mp hc with hc | hc
  · exact (hplaces.plain hc).mono (by simp)
  · exact (hexponent.plain hc).mono (by simp)

theorem DigitForm.plain (h : DigitForm body before after e) (hc : c ∈ body) :
    Plain ['x', 'X', '.', 'p', 'P', '+', '-'] c := by
  obtain ⟨hmark, hplaces, -, hexponent⟩ := h
  rcases List.mem_append.mp hc with hc | hc
  · exact (hmark.plain hc).mono (by simp)
  · exact (plain_of_parts hplaces hexponent hc).mono (by simp)

/-! ## Cutting a body into its parts -/

theorem cutAt_of_forall {p : Char → Bool} (h : ∀ c ∈ cs, p c = false) :
    cutAt p cs = (cs, none) := by
  induction cs with
  | nil => rfl
  | cons c cs ih =>
    rw [List.forall_mem_cons] at h
    rw [cutAt, ih h.2, h.1]
    rfl

theorem Places.cutAt (h : Places cs before after) :
    ∃ integer fraction?, cutAt (· == '.') cs = (integer, fraction?) ∧
      List.Forall₂ (DigitChar 16) integer before ∧
      List.Forall₂ (DigitChar 16) (fraction?.getD []) after := by
  have hpoint : ∀ {cs ds}, List.Forall₂ (DigitChar 16) cs ds → ∀ c ∈ cs, (c == '.') = false := by
    intro cs ds h c hc
    exact beq_eq_false_iff_ne.mpr ((plain_of_digits h le_rfl hc).ne (by decide) (by decide))
  cases h with
  | whole h => exact ⟨_, _, cutAt_of_forall (hpoint h), h, .nil⟩
  | pointed hbefore hafter => exact ⟨_, _, cutAt_append (hpoint hbefore) rfl, hbefore, hafter⟩

theorem places_of_cutAt {integer : List Char} {fraction? : Option (List Char)}
    (h : Text.cutAt (· == '.') cs = (integer, fraction?))
    (hbefore : List.Forall₂ (DigitChar 16) integer before)
    (hafter : List.Forall₂ (DigitChar 16) (fraction?.getD []) after) : Places cs before after := by
  rcases eq_of_cutAt (· == '.') cs with ⟨hnone, hcs⟩ | ⟨c, rest, hc, hsome, hcs⟩
  · rw [h] at hnone hcs
    obtain rfl : fraction? = none := hnone
    obtain rfl := List.forall₂_nil_left_iff.mp hafter
    rw [hcs]
    exact .whole hbefore
  · rw [h] at hsome hcs
    obtain rfl : fraction? = some rest := hsome
    rw [hcs, beq_iff_eq.mp hc]
    exact .pointed hbefore hafter

/-- Characters are missing on both sides of the point exactly if digits are. -/
theorem isEmpty_iff_of_digits {base : ℕ} {integer fraction : List Char}
    (hbefore : List.Forall₂ (DigitChar base) integer before)
    (hafter : List.Forall₂ (DigitChar base) fraction after) :
    (integer.isEmpty && fraction.isEmpty) = true ↔ before ++ after = [] := by
  rw [Bool.and_eq_true, List.isEmpty_iff_length_eq_zero, List.isEmpty_iff_length_eq_zero,
    hbefore.length_eq, hafter.length_eq, ← List.length_eq_zero_iff, List.length_append,
    Nat.add_eq_zero_iff]

/-- A significand is read exactly if it has digits, and these are collected. -/
theorem readSignificand_eq_some_iff {s : Significand} :
    readSignificand cs = some s ↔ ∃ before after, Places cs before after ∧ before ++ after ≠ [] ∧
      s = Significand.ofDigits before after := by
  rcases hcut : Text.cutAt (· == '.') cs with ⟨integer, fraction?⟩
  unfold readSignificand
  rw [hcut]
  simp only [Option.bind_eq_bind, Option.pure_def]
  constructor
  · intro h
    split at h
    · cases h
    · rename_i hne
      simp only [Option.bind_eq_some_iff, Option.some.injEq, digits?_eq_some_iff le_rfl] at h
      obtain ⟨before, hbefore, after, hafter, rfl⟩ := h
      exact ⟨before, after, places_of_cutAt hcut hbefore hafter,
        mt (isEmpty_iff_of_digits hbefore hafter).mpr hne, rfl⟩
  · rintro ⟨before, after, hplaces, hne, rfl⟩
    obtain ⟨integer', fraction?', hcut', hbefore, hafter⟩ := hplaces.cutAt
    obtain ⟨rfl, rfl⟩ := Prod.mk.inj (hcut.symm.trans hcut')
    rw [if_neg (mt (isEmpty_iff_of_digits hbefore hafter).mp hne),
      (digits?_eq_some_iff le_rfl).mpr hbefore, (digits?_eq_some_iff le_rfl).mpr hafter]
    rfl

/-! ## The exponent -/

/-- An exponent whose size is cut. -/
def cutExponent (cut : ℕ → ℕ) (e : ℤ) : ℤ :=
  e.sign * cut e.natAbs

theorem cutExponent_signed {n : ℕ} (hcut : cut 0 = 0) :
    cutExponent cut (if negative then -(n : ℤ) else n)
      = if negative then -(cut n : ℤ) else cut n := by
  rcases Nat.eq_zero_or_pos n with rfl | hn
  · simp [cutExponent, hcut]
  · have hsign : ((n : ℕ) : ℤ).sign = 1 := Int.sign_eq_one_of_pos (by exact_mod_cast hn)
    cases negative <;> simp [cutExponent, hsign]

theorem takeSign_digits (hsign : Sign sign negative) (h : List.Forall₂ (DigitChar 10) cs ds) :
    takeSign (sign ++ cs) = (negative, cs) := by
  refine takeSign_append hsign (fun c hc => ?_)
  have hplain := plain_of_digits h (by decide) (List.mem_of_mem_head? hc)
  exact ⟨hplain.ne (by decide) (by decide), hplain.ne (by decide) (by decide)⟩

theorem readExponent_written (hcut : cut 0 = 0) (hsign : Sign sign negative) (hne : cs ≠ [])
    (h : List.Forall₂ (DigitChar 10) cs ds) :
    readExponent cut (sign ++ cs) = some (cutExponent cut
      (if negative then -(Nat.ofDigits 10 ds.reverse : ℕ)
        else (Nat.ofDigits 10 ds.reverse : ℕ))) := by
  unfold readExponent
  rw [takeSign_digits hsign h, cutExponent_signed hcut]
  dsimp only
  rw [if_neg (mt List.isEmpty_iff.mp hne), (digits?_eq_some_iff (by decide)).mpr h, Option.map_some,
    valueOf_eq_ofDigits]

theorem exists_exponent {mark : Char} {z : ℤ} (hmark : mark = 'p' ∨ mark = 'P')
    (h : readExponent cut cs = some z) : ∃ e, ExponentPart (mark :: cs) e := by
  rcases htake : takeSign cs with ⟨negative, digits⟩
  obtain ⟨sign, hsign, rfl⟩ := exists_sign htake
  unfold readExponent at h
  rw [htake] at h
  dsimp only at h
  split at h
  · cases h
  · rename_i hne
    obtain ⟨ds, hds, -⟩ := Option.map_eq_some_iff.mp h
    exact ⟨_, .written hmark hsign (mt List.isEmpty_iff.mpr hne)
      ((digits?_eq_some_iff (by decide)).mp hds)⟩

/-! ## Bodies -/

theorem dropHexMark_of_forall (h : ∀ c ∈ cs, c ≠ 'x' ∧ c ≠ 'X') : dropHexMark cs = cs := by
  unfold dropHexMark
  split
  · exact absurd rfl (h 'x' (by simp)).1
  · exact absurd rfl (h 'X' (by simp)).2
  · rfl

theorem exists_hexMark (cs : List Char) : ∃ mark, HexMark mark ∧ cs = mark ++ dropHexMark cs := by
  unfold dropHexMark
  split
  · exact ⟨_, .small, rfl⟩
  · exact ⟨_, .capital, rfl⟩
  · exact ⟨_, .none, rfl⟩

theorem cutAt_places (hplaces : Places cs before after) (hexponent : ExponentPart text e) :
    cutAt (fun c => c == 'p' || c == 'P') (cs ++ text) = (cs, text.tail?) := by
  have hletter : ∀ c ∈ cs, (c == 'p' || c == 'P') = false := by
    intro c hc
    have hplain := hplaces.plain hc
    rw [Bool.or_eq_false_iff, beq_eq_false_iff_ne, beq_eq_false_iff_ne]
    exact ⟨hplain.ne (by decide) (by decide), hplain.ne (by decide) (by decide)⟩
  cases hexponent with
  | none =>
    rw [List.append_nil]
    exact cutAt_of_forall hletter
  | written hmark hsign hne h =>
    exact cutAt_append hletter (by rcases hmark with rfl | rfl <;> rfl)

/-- A body in digits is read as the number that is computed from it, with the exponent cut. -/
theorem DigitForm.readHexMagnitude (hcut : cut 0 = 0) (h : DigitForm body before after e) :
    readHexMagnitude cut body = some (computed before after (cutExponent cut e)) := by
  obtain ⟨hmark, hplaces, hne, hexponent⟩ := h
  rename_i mark places exponent
  have hdrop : dropHexMark (mark ++ (places ++ exponent)) = places ++ exponent := by
    cases hmark with
    | small => rfl
    | capital => rfl
    | none =>
      -- Without a mark no character of the rest is the letter of one.
      refine dropHexMark_of_forall (fun c hc => ?_)
      have hplain := plain_of_parts hplaces hexponent hc
      exact ⟨hplain.ne (by decide) (by decide), hplain.ne (by decide) (by decide)⟩
  have hsignificand := readSignificand_eq_some_iff.mpr ⟨before, after, hplaces, hne, rfl⟩
  unfold Binary64.readHexMagnitude
  rw [hdrop, cutAt_places hplaces hexponent]
  simp only [hsignificand, Option.bind_eq_bind, Option.bind_some]
  cases hexponent with
  | none => simp [cutExponent, computed]
  | written hp hsign hdigits h =>
    simp [readExponent_written hcut hsign hdigits h, computed]

/-- Whatever is read without being a name is in digits. -/
theorem exists_digitForm (h : readHexMagnitude cut body = some x) :
    ∃ before after e, DigitForm body before after e := by
  obtain ⟨mark, hmark, hbody⟩ := exists_hexMark body
  -- The cut leaves the whole text if there is no exponent, and its two sides otherwise.
  have hparts : ∃ places exponent e, dropHexMark body = places ++ exponent ∧
      (∃ s, readSignificand places = some s) ∧ ExponentPart exponent e := by
    rcases hcutAt : cutAt (fun c => c == 'p' || c == 'P') (dropHexMark body) with
      ⟨places, exponent?⟩
    have hcases := eq_of_cutAt (fun c => c == 'p' || c == 'P') (dropHexMark body)
    unfold Binary64.readHexMagnitude at h
    rw [hcutAt] at h hcases
    dsimp only at h hcases
    rcases hcases with ⟨rfl, hcs⟩ | ⟨c, rest, hc, rfl, hcs⟩
    · obtain ⟨s, hs, -⟩ := Option.bind_eq_some_iff.mp h
      exact ⟨places, [], 0, by rw [List.append_nil, hcs], ⟨s, hs⟩, .none⟩
    · obtain ⟨s, hs, h⟩ := Option.bind_eq_some_iff.mp h
      obtain ⟨z, hz, -⟩ := Option.bind_eq_some_iff.mp h
      rw [Bool.or_eq_true, beq_iff_eq, beq_iff_eq] at hc
      obtain ⟨e, he⟩ := exists_exponent hc hz
      exact ⟨places, c :: rest, e, hcs, ⟨s, hs⟩, he⟩
  obtain ⟨places, exponent, e, hrest, ⟨s, hs⟩, hexponent⟩ := hparts
  obtain ⟨before, after, hplaces, hne, -⟩ := readSignificand_eq_some_iff.mp hs
  rw [hbody, hrest]
  exact ⟨before, after, e, .intro hmark hplaces hne hexponent⟩

/-! ## Names -/

/-- A name is read as the number of this name, and nothing else is. -/
theorem readNamed_eq_some_iff : readNamed negative body = some x ↔ NamedForm negative body x := by
  have hsame : ∀ name : List Char, name.map Char.toLower = name →
      (sameLetters body name = true ↔ body.map Char.toLower = name) := by
    intro name hname
    rw [sameLetters, foldCase, foldCase, hname, beq_iff_eq]
  have hinf := hsame ['i', 'n', 'f'] (by decide)
  have hinfinity := hsame ['i', 'n', 'f', 'i', 'n', 'i', 't', 'y'] (by decide)
  have hnan := hsame ['n', 'a', 'n'] (by decide)
  unfold readNamed
  simp only [Bool.or_eq_true, hinf, hinfinity, hnan]
  constructor
  · intro h
    split at h
    · rename_i hname
      obtain rfl := Option.some.inj h
      rcases hname with hname | hname
      · exact .inf hname
      · exact .infinity hname
    · split at h
      · rename_i hname
        obtain rfl := Option.some.inj h
        exact .nan hname
      · cases h
  · intro h
    cases h with
    | inf h => rw [if_pos (.inl h)]
    | infinity h => rw [if_pos (.inr h)]
    | nan h => rw [if_neg (by rw [h]; decide), if_pos h]

/-- All names have an `n`. -/
theorem NamedForm.mem (h : NamedForm negative body x) :
    'n' ∈ body.map Char.toLower ∧
      ∀ c ∈ body.map Char.toLower, c ∈ ['i', 'n', 'f', 't', 'y', 'a'] := by
  cases h with
  | inf h =>
    rw [h]
    simp
  | infinity h =>
    rw [h]
    simp
  | nan h =>
    rw [h]
    simp

theorem NamedForm.bare (h : NamedForm negative body x) : Bare body := by
  obtain ⟨hn, hletters⟩ := h.mem
  have hall : ∀ c ∈ ['i', 'n', 'f', 't', 'y', 'a'],
      (isBlank c = false ∧ c ≠ '+' ∧ c ≠ '-') ∧
        isBlank c.toUpper = false ∧ c.toUpper ≠ '+' ∧ c.toUpper ≠ '-' := by
    simp only [List.forall_mem_cons, List.not_mem_nil, false_imp_iff, implies_true]
    decide
  have hchar : ∀ c ∈ body, isBlank c = false ∧ c ≠ '+' ∧ c ≠ '-' := by
    intro c hc
    obtain ⟨hsmall, hcapital⟩ := hall _ (hletters _ (List.mem_map_of_mem hc))
    rcases eq_or_eq_toUpper c with heq | heq
    · rw [heq]
      exact hsmall
    · rw [heq]
      exact hcapital
  refine ⟨?_, fun c hc => (hchar c hc).1⟩
  cases body with
  | nil => cases hn
  | cons c rest => exact ⟨c, rest, rfl, (hchar c (List.mem_cons_self ..)).2⟩

/-! ## Literals -/

theorem Places.ne_nil (h : Places cs before after) (hne : before ++ after ≠ []) : cs ≠ [] := by
  rintro rfl
  generalize htext : ([] : List Char) = text at h
  cases h with
  | whole h =>
    subst htext
    obtain rfl := List.forall₂_nil_left_iff.mp h
    exact hne rfl
  | pointed => simp at htext

theorem Places.exists_head (h : Places cs before after) (hne : before ++ after ≠ []) :
    ∃ c rest, cs = c :: rest ∧ c ≠ '+' ∧ c ≠ '-' := by
  obtain ⟨c, rest, rfl⟩ := List.exists_cons_of_ne_nil (h.ne_nil hne)
  have hplain := h.plain (List.mem_cons_self ..)
  exact ⟨c, rest, rfl, hplain.ne (by decide) (by decide), hplain.ne (by decide) (by decide)⟩

theorem DigitForm.bare (h : DigitForm body before after e) : Bare body := by
  refine ⟨?_, fun c hc => (h.plain hc).isBlank⟩
  obtain ⟨hmark, hplaces, hne, -⟩ := h
  cases hmark with
  | small => exact ⟨'0', _, rfl, by decide, by decide⟩
  | capital => exact ⟨'0', _, rfl, by decide, by decide⟩
  | none =>
    obtain ⟨c, rest, rfl, hhead⟩ := hplaces.exists_head hne
    exact ⟨c, _, rfl, hhead⟩

/-- A body without the letter `n` is not a name. -/
theorem readNamed_of_plain (h : ∀ c ∈ body, Plain allowed c) (hsmall : 'n' ∉ allowed)
    (hcapital : 'N' ∉ allowed) (negative : Bool) : readNamed negative body = none := by
  cases hread : readNamed negative body with
  | none => rfl
  | some x =>
    obtain ⟨c, hc, hn⟩ := List.mem_map.mp (readNamed_eq_some_iff.mp hread).mem.1
    have hletter := eq_or_eq_toUpper c
    rw [hn] at hletter
    rcases hletter with hletter | hletter
    · exact absurd hletter ((h c hc).ne (by decide) hsmall)
    · exact absurd hletter ((h c hc).ne (by decide) hcapital)

/-- Digits are not a name. -/
theorem DigitForm.readNamed (h : DigitForm body before after e) (negative : Bool) :
    readNamed negative body = none :=
  readNamed_of_plain (fun _ hc => h.plain hc) (by decide) (by decide) negative

/-- Digits do not become a name by a sign and blanks. -/
theorem DigitLiteral.not_named (h : DigitLiteral text negative before after e) :
    ¬NamedLiteral text x := by
  obtain ⟨sign, body, hsign, hbody, htext⟩ := h
  rintro ⟨sign', negative', body', hsign', hbody', htext'⟩
  have htake := takeSign_trim hsign hbody.bare htext
  rw [takeSign_trim hsign' hbody'.bare htext', Prod.mk.injEq] at htake
  obtain ⟨rfl, rfl⟩ := htake
  have hnamed := readNamed_eq_some_iff.mpr hbody'
  rw [hbody.readNamed] at hnamed
  cases hnamed

/-- What a literal in digits is read as, whatever is done with the size of its exponent. -/
theorem ofHexWith?_digits (hcut : cut 0 = 0) (h : DigitLiteral text negative before after e) :
    ofHexWith? cut text = some (signed negative (computed before after (cutExponent cut e))) := by
  obtain ⟨sign, body, hsign, hbody, htext⟩ := h
  unfold ofHexWith?
  rw [takeSign_trim hsign hbody.bare htext]
  simp only [hbody.readNamed, hbody.readHexMagnitude hcut]
  rfl

theorem ofHexWith?_named (h : NamedLiteral text x) : ofHexWith? cut text = some x := by
  obtain ⟨sign, negative, body, hsign, hbody, htext⟩ := h
  unfold ofHexWith?
  rw [takeSign_trim hsign hbody.bare htext]
  simp only [readNamed_eq_some_iff.mpr hbody]
  rfl

/-- Whatever is read is a literal. -/
theorem exists_literal (h : ofHexWith? cut text = some x) :
    (∃ y, NamedLiteral text y) ∨
      ∃ negative before after e, DigitLiteral text negative before after e := by
  rcases htake : takeSign (trim text) with ⟨negative, body⟩
  obtain ⟨sign, hsign, htext⟩ := exists_surrounds htake
  unfold ofHexWith? at h
  rw [htake] at h
  rcases (Option.orElse_eq_some _ _ _).mp h with hnamed | ⟨-, hdigits⟩
  · exact .inl ⟨x, sign, negative, body, hsign, readNamed_eq_some_iff.mp hnamed, htext⟩
  · obtain ⟨y, hy, -⟩ := Option.map_eq_some_iff.mp hdigits
    obtain ⟨before, after, e, hbody⟩ := exists_digitForm hy
    exact .inr ⟨negative, before, after, e, sign, body, hsign, hbody, htext⟩

/-- **What is accepted.** A text is read exactly if it is a literal, whatever is done with the size
of a written exponent. -/
theorem exists_ofHexWith?_iff (hcut : cut 0 = 0) (text : List Char) :
    (∃ x, ofHexWith? cut text = some x) ↔ (∃ x, NamedLiteral text x) ∨
      ∃ negative before after e, DigitLiteral text negative before after e := by
  constructor
  · rintro ⟨x, h⟩
    exact exists_literal h
  · rintro (⟨x, h⟩ | ⟨negative, before, after, e, h⟩)
    · exact ⟨x, ofHexWith?_named h⟩
    · exact ⟨_, ofHexWith?_digits hcut h⟩

/-! ## The number that is read -/

theorem DigitLiteral.digit_lt (h : DigitLiteral text negative before after e) :
    ∀ d ∈ before ++ after, d < 16 := by
  have hlt : ∀ {cs ds}, List.Forall₂ (DigitChar 16) cs ds → ∀ d ∈ ds, d < 16 := by
    intro cs ds h d hd
    obtain ⟨i, hi, rfl⟩ := List.getElem_of_mem hd
    have hlength := h.length_eq
    exact (h.get (by omega) hi).lt
  obtain ⟨sign, body, -, ⟨-, hplaces, -, -⟩, -⟩ := h
  rw [List.forall_mem_append]
  cases hplaces with
  | whole h => exact ⟨hlt h, by simp⟩
  | pointed hbefore hafter => exact ⟨hlt hbefore, hlt hafter⟩

theorem isNegative_signed (negative : Bool) (hx : x.isNegative = false) :
    (signed negative x).isNegative = negative ∧ (signed negative x).magnitude = x.magnitude := by
  cases negative with
  | false => exact ⟨hx, rfl⟩
  | true =>
    rw [signed, if_pos rfl, neg, hx, Bool.not_false]
    exact ⟨isNegative_ofMagnitude true x.magnitude_lt, magnitude_ofMagnitude true x.magnitude_lt⟩

theorem cutExponent_min (he : e.natAbs ≤ exponentBound) :
    cutExponent (min exponentBound) e = e := by
  rw [cutExponent, Nat.min_eq_right he]
  exact Int.sign_mul_natAbs e

/-- A text is read as one number only, and of the numbers of a sign one only is nearest. -/
theorem ofHex?_eq_some_iff {q : ℚ} (h : ofHex? text = some x) (hx : Nearest q x) (y : Binary64) :
    ofHex? text = some y ↔ y.isNegative = x.isNegative ∧ Nearest q y := by
  rw [h, Option.some.injEq]
  constructor
  · rintro rfl
    exact ⟨rfl, hx⟩
  · rintro ⟨hsign, hy⟩
    exact eq_of_magnitude hsign.symm (hx.unique hy)

/-- **Hexadecimal notation.** A text is read exactly if it is a literal. A literal in digits whose
exponent is not too large is read as the number of its sign that is nearest to 53 significant bits
of the exact value, and so as the number nearest to the value itself, unless this is too small to
be normal. -/
theorem ofHex?_exact :
    (∀ text, (∃ x, ofHex? text = some x) ↔ (∃ x, NamedLiteral text x) ∨
      ∃ negative before after e, DigitLiteral text negative before after e) ∧
    ∀ text negative before after e, DigitLiteral text negative before after e →
      e.natAbs ≤ 100000 →
      (∀ x, ofHex? text = some x ↔ x.isNegative = negative ∧
        Nearest (toPrecision 53 (writtenValue before after e)) x) ∧
      (writtenValue before after e = 0 ∨ 2 ^ (-1022 : ℤ) ≤ writtenValue before after e →
        ∀ x, ofHex? text = some x ↔ x.isNegative = negative ∧
          Nearest (writtenValue before after e) x) := by
  refine ⟨exists_ofHexWith?_iff rfl, fun text negative before after e h he => ?_⟩
  obtain ⟨hnearest, hpositive⟩ := nearest_computed h.digit_lt e
  obtain ⟨hsign, hmagnitude⟩ := isNegative_signed negative hpositive
  have hread : ofHex? text = some (signed negative (computed before after e)) := by
    rw [ofHex?, ofHexWith?_digits rfl h, cutExponent_min he]
  have hround := hnearest.of_magnitude hmagnitude
  refine ⟨fun x => ?_, fun hsize x => ?_⟩
  · rw [ofHex?_eq_some_iff hread hround, hsign]
  · have hexact :
        Nearest (writtenValue before after e) (signed negative (computed before after e)) := by
      rcases hsize with hzero | hnormal
      · rw [hzero, toPrecision_zero] at hround
        rw [hzero]
        exact hround
      · exact hround.of_toPrecision hnormal
    rw [ofHex?_eq_some_iff hread hexact, hsign]

/-- Digits past the sixtieth bit decide where a literal near the middle of two numbers goes. -/
theorem ofHex?_exact_tie :
    DigitLiteral " -0X1.00000000000008000000001p+3".toList true [1]
        [0, 0, 0, 0, 0, 0, 0, 0, 0, 0, 0, 0, 0, 8, 0, 0, 0, 0, 0, 0, 0, 0, 1] 3 ∧
      ∀ x, ofHex? " -0X1.00000000000008000000001p+3".toList = some x ↔ x.isNegative = true ∧
        Nearest (writtenValue [1]
          [0, 0, 0, 0, 0, 0, 0, 0, 0, 0, 0, 0, 0, 8, 0, 0, 0, 0, 0, 0, 0, 0, 1] 3) x := by
  have hliteral : DigitLiteral " -0X1.00000000000008000000001p+3".toList true [1]
      [0, 0, 0, 0, 0, 0, 0, 0, 0, 0, 0, 0, 0, 8, 0, 0, 0, 0, 0, 0, 0, 0, 1] 3 := by
    have hbefore : digits? 16 "1".toList = some [1] := by decide
    have hafter : digits? 16 "00000000000008000000001".toList
        = some [0, 0, 0, 0, 0, 0, 0, 0, 0, 0, 0, 0, 0, 8, 0, 0, 0, 0, 0, 0, 0, 0, 1] := by decide
    have hexponent : digits? 10 "3".toList = some [3] := by decide
    rw [digits?_eq_some_iff (by decide)] at hbefore hafter hexponent
    exact ⟨['-'], _, .minus, .intro .capital (.pointed hbefore hafter) (by simp)
      (.written (.inl rfl) .plus (by simp) hexponent), [' '], [],
      rfl, List.forall_mem_singleton.mpr rfl, by simp⟩
  refine ⟨hliteral, (ofHex?_exact.2 _ _ _ _ _ hliteral (by decide)).2 (.inr ?_)⟩
  have hone : (2 : ℚ) ^ (-1022 : ℤ) ≤ 1 := zpow_le_one_of_nonpos₀ one_le_two (by decide)
  refine hone.trans ?_
  rw [writtenValue, ← valueOf_eq_ofDigits]
  norm_num [valueOf]

end FrameCode.Binary64
