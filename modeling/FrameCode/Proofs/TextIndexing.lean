import FrameCode.Machine.Operator
import FrameCode.Proofs.Checks

/-!
# Texts as arrays of characters

The operators on texts count characters, from zero, and take their indices from words, which may be
negative or far too large. An index stands in a text if it is the number of one of its characters
(`Stands`), and every operator that looks at a character asks for exactly this: `charAt` is the one
place where it is decided, so one equation for each side (`charAt_eq_ok_iff`,
`charAt_of_not_stands`) serves them all.

A character and its code are two forms of one thing. The codes of characters are the Unicode scalar
values (`IsScalarValue`): no surrogate is one, and nothing beyond the last plane.

`length` gives the number of characters as a word. A text with more characters than the greatest
word fits in no memory, so no length wraps around; the statements that compare an index with the
number of characters itself need no such bound.
-/

namespace FrameCode.Operator

open FrameCode.Checks

variable {s t r u : String} {i j : Int64} {c : Char} {v : Value}

/-! ## Where an index stands -/

/-- An index is the number of one of the characters of a text. -/
def Stands (i : Int64) (s : String) : Prop :=
  0 ≤ i.toInt ∧ i.toInt < s.length

theorem charAt_eq_ok_iff :
    charAt s i = .ok c ↔ 0 ≤ i.toInt ∧ s.toList[i.toInt.toNat]? = some c := by
  unfold charAt
  by_cases hi : 0 ≤ i.toInt
  · simp only [hi, true_and]
    rcases s.toList[i.toInt.toNat]? with _ | d
    · simp
    · simp
  · simp [hi]

theorem exists_getElem? (h : Stands i s) : ∃ c, s.toList[i.toInt.toNat]? = some c := by
  have hlt : i.toInt.toNat < s.toList.length := by
    have hpos := h.1
    have hlast := h.2
    rw [String.length_toList]
    omega
  exact ⟨_, List.getElem?_eq_getElem hlt⟩

theorem exists_charAt (h : Stands i s) : ∃ c, charAt s i = .ok c := by
  obtain ⟨c, hc⟩ := exists_getElem? h
  exact ⟨c, charAt_eq_ok_iff.mpr ⟨h.1, hc⟩⟩

theorem stands_of_charAt (h : charAt s i = .ok c) : Stands i s := by
  obtain ⟨hpos, hc⟩ := charAt_eq_ok_iff.mp h
  obtain ⟨hlt, -⟩ := List.getElem?_eq_some_iff.mp hc
  rw [String.length_toList] at hlt
  exact ⟨hpos, by omega⟩

theorem exists_charAt_iff : (∃ c, charAt s i = .ok c) ↔ Stands i s :=
  ⟨fun ⟨_, h⟩ => stands_of_charAt h, exists_charAt⟩

/-- An index that stands nowhere in a text is reported with the length of the text. -/
theorem charAt_of_not_stands (h : ¬Stands i s) :
    charAt s i = .error (.stringIndexOutOfRange i s.length) := by
  unfold charAt
  dsimp only
  split
  · rename_i c hc
    -- A character that was found has an index that stands.
    exfalso
    apply h
    apply stands_of_charAt (c := c)
    rw [charAt_eq_ok_iff]
    by_cases hi : 0 ≤ i.toInt
    · rw [if_pos hi] at hc
      exact ⟨hi, hc⟩
    · rw [if_neg hi] at hc
      cases hc
  · rfl

/-- Texts of one length that agree on the character at an index cannot be told apart there. -/
theorem charAt_congr (hlength : s.length = t.length)
    (h : 0 ≤ i.toInt → s.toList[i.toInt.toNat]? = t.toList[i.toInt.toNat]?) :
    charAt s i = charAt t i := by
  by_cases hi : 0 ≤ i.toInt
  · unfold charAt
    rw [h hi, hlength]
  · -- A negative index stands in neither text.
    rw [charAt_of_not_stands (mt And.left hi), charAt_of_not_stands (mt And.left hi), hlength]

/-! ## Reading characters -/

theorem getChar_eq_map (s : String) (i : Int64) :
    getChar (.string s) (.int i) = (charAt s i).map fun c => .string (String.ofList [c]) := rfl

theorem codeAt_eq_map (s : String) (i : Int64) :
    codeAt (.string s) (.int i) = (charAt s i).map fun c => .int (Int64.ofNat c.toNat) := rfl

/-- What is made of a character exists exactly if the character does. -/
theorem exists_map_charAt_iff {g : Char → Value} :
    (∃ v, (charAt s i).map g = .ok v) ↔ Stands i s := by
  rw [← exists_charAt_iff]
  constructor
  · rintro ⟨v, h⟩
    obtain ⟨c, hc, -⟩ := map_eq_ok.mp h
    exact ⟨c, hc⟩
  · rintro ⟨c, hc⟩
    exact ⟨g c, map_eq_ok.mpr ⟨c, hc, rfl⟩⟩

theorem map_charAt_of_not_stands {g : Char → Value} (h : ¬Stands i s) :
    (charAt s i).map g = .error (.stringIndexOutOfRange i s.length) :=
  map_eq_error.mpr (charAt_of_not_stands h)

/-- The text that is read is the one character at the index. -/
theorem getChar_of_getElem? (hpos : 0 ≤ i.toInt) (hc : s.toList[i.toInt.toNat]? = some c) :
    getChar (.string s) (.int i) = .ok (.string (String.ofList [c])) := by
  rw [getChar_eq_map, charAt_eq_ok_iff.mpr ⟨hpos, hc⟩]
  rfl

theorem getChar_eq_ok_iff :
    getChar (.string s) (.int i) = .ok (.string (String.ofList [c])) ↔
      0 ≤ i.toInt ∧ s.toList[i.toInt.toNat]? = some c := by
  constructor
  · intro h
    obtain ⟨d, hd, heq⟩ := map_eq_ok.mp h
    have hsame : [d] = [c] := String.ofList_injective (Value.string.inj heq)
    rw [List.singleton_inj.mp hsame] at hd
    exact charAt_eq_ok_iff.mp hd
  · rintro ⟨hpos, hc⟩
    exact getChar_of_getElem? hpos hc

/-! ## Characters and their codes -/

/-- The codes of characters. -/
def IsScalarValue (n : Int) : Prop :=
  0 ≤ n ∧ n ≤ 0x10FFFF ∧ ¬(0xD800 ≤ n ∧ n ≤ 0xDFFF)

theorem isScalarValue_iff (n : Int) : IsScalarValue n ↔ 0 ≤ n ∧ n.toNat.isValidChar := by
  unfold IsScalarValue Nat.isValidChar
  omega

theorem isScalarValue_toNat (c : Char) : IsScalarValue c.toNat := by
  rw [isScalarValue_iff]
  exact ⟨Int.natCast_nonneg _, c.valid⟩

/-- The code of a character is a word. -/
theorem toInt_code (c : Char) : (Int64.ofNat c.toNat).toInt = c.toNat := by
  have hscalar := (isScalarValue_toNat c).2.1
  apply Int64.toInt_ofNat_of_lt
  omega

theorem charOfCode?_of_scalar (h : IsScalarValue i.toInt) :
    charOfCode? i = some (Char.ofNat i.toInt.toNat) := by
  unfold charOfCode?
  exact if_pos ((isScalarValue_iff _).mp h)

theorem charOfCode?_of_not_scalar (h : ¬IsScalarValue i.toInt) : charOfCode? i = none := by
  unfold charOfCode?
  exact if_neg (mt (isScalarValue_iff _).mpr h)

theorem ofCode_of_scalar (h : IsScalarValue i.toInt) :
    ofCode (.int i) = .ok (.string (String.ofList [Char.ofNat i.toInt.toNat])) := by
  simp only [ofCode, charOfCode?_of_scalar h]

theorem ofCode_of_not_scalar (h : ¬IsScalarValue i.toInt) :
    ofCode (.int i) = .error (.invalidCodePoint i) := by
  simp only [ofCode, charOfCode?_of_not_scalar h]

theorem exists_ofCode_iff (i : Int64) : (∃ v, ofCode (.int i) = .ok v) ↔ IsScalarValue i.toInt := by
  by_cases h : IsScalarValue i.toInt
  · rw [ofCode_of_scalar h]
    exact ⟨fun _ => h, fun _ => ⟨_, rfl⟩⟩
  · rw [ofCode_of_not_scalar h]
    simp [h]

/-- The character with the code of a character is that character. -/
theorem ofCode_code (c : Char) :
    ofCode (.int (Int64.ofNat c.toNat)) = .ok (.string (String.ofList [c])) := by
  have hscalar : IsScalarValue (Int64.ofNat c.toNat).toInt := by
    rw [toInt_code]
    exact isScalarValue_toNat c
  rw [ofCode_of_scalar hscalar, toInt_code, Int.toNat_natCast, Char.ofNat_toNat]

/-- Reading a code and turning it into a character is reading the character, and fails alike. -/
theorem codeAt_ofCode (s : String) (i : Int64) :
    (codeAt (.string s) (.int i) >>= ofCode) = getChar (.string s) (.int i) := by
  rw [codeAt_eq_map, getChar_eq_map, bind_after_map]
  -- A missing character is missed by both, and one that is there comes back from its code.
  simp only [ofCode_code]
  rcases charAt s i with cause | c
  · rfl
  · rfl

/-- The code of the character with a code is that code. -/
theorem ofCode_codeAt (h : IsScalarValue i.toInt) :
    (ofCode (.int i) >>= fun v => codeAt v (.int 0)) = .ok (.int i) := by
  have hvalid := (isScalarValue_iff _).mp h
  have hcode : (Char.ofNat i.toInt.toNat).toNat = i.toInt.toNat := by
    rw [Char.ofNat, dif_pos hvalid.2]
    rfl
  -- The code is not negative, so the natural number it is cut to is the code itself.
  have hword : Int64.ofNat i.toInt.toNat = i := by
    rw [← Int64.toInt_inj, Int64.toInt_ofNat_of_lt (by have := i.toInt_lt; omega)]
    omega
  have hfirst : charAt (String.ofList [Char.ofNat i.toInt.toNat]) 0 =
      .ok (Char.ofNat i.toInt.toNat) := by
    rw [charAt_eq_ok_iff, String.toList_ofList, Int64.toInt_zero]
    exact ⟨Int.le_refl 0, rfl⟩
  rw [ofCode_of_scalar h, ok_bind, codeAt_eq_map, hfirst]
  show Except.ok (Value.int (Int64.ofNat (Char.ofNat i.toInt.toNat).toNat)) = _
  rw [hcode, hword]

/-! ## Lengths and joined texts -/

/-- The number of characters is a word, for any text that memory can hold. -/
theorem toInt_length (h : (s.length : Int) ≤ Int64.maxValue.toInt) :
    (Int64.ofNat s.length).toInt = s.length := by
  rw [Int64.toInt_maxValue] at h
  apply Int64.toInt_ofNat_of_lt
  omega

theorem stands_iff_word (h : (s.length : Int) ≤ Int64.maxValue.toInt) (i : Int64) :
    Stands i s ↔ 0 ≤ i ∧ i < Int64.ofNat s.length := by
  rw [Int64.le_iff_toInt_le, Int64.lt_iff_toInt_lt, toInt_length h, Int64.toInt_zero]
  rfl

/-- An index of a joined text stands in the first part, or so far behind it as an index that stands
in the second. -/
theorem getChar_append (h : Stands i (s ++ t)) :
    (Stands i s ∧ getChar (.string (s ++ t)) (.int i) = getChar (.string s) (.int i)) ∨
      ∃ j : Int64, i.toInt = s.length + j.toInt ∧ Stands j t ∧
        getChar (.string (s ++ t)) (.int i) = getChar (.string t) (.int j) := by
  obtain ⟨c, hc⟩ := exists_getElem? h
  obtain ⟨hpos, hlast⟩ := h
  rw [String.length_append] at hlast
  have hread := getChar_of_getElem? hpos hc
  rw [String.toList_append] at hc
  by_cases hfirst : i.toInt < s.length
  · left
    refine ⟨⟨hpos, hfirst⟩, ?_⟩
    rw [List.getElem?_append_left (by rw [String.length_toList]; omega)] at hc
    rw [hread, getChar_of_getElem? hpos hc]
  · right
    -- What is left of the index is a word, since the index is one.
    have hj : (Int64.ofInt (i.toInt - s.length)).toInt = i.toInt - s.length := by
      have hword := i.toInt_lt
      apply Int64.toInt_ofInt_of_le
      · omega
      · omega
    have hposition : i.toInt.toNat - s.toList.length = (i.toInt - s.length).toNat := by
      rw [String.length_toList]
      omega
    rw [List.getElem?_append_right (by rw [String.length_toList]; omega), hposition, ← hj] at hc
    refine ⟨Int64.ofInt (i.toInt - s.length), by omega, ⟨by omega, by omega⟩, ?_⟩
    rw [hread, getChar_of_getElem? (by omega) hc]

/-! ## Replacing a character -/

theorem setChar_of_not_stands (h : ¬Stands i s) (r : String) :
    setChar (.string s) (.int i) (.string r) = .error (.stringIndexOutOfRange i s.length) := by
  simp only [setChar, charAt_of_not_stands h]

theorem setChar_of_empty (h : Stands i s) :
    setChar (.string s) (.int i) (.string "") = .error .emptyReplacement := by
  obtain ⟨c, hc⟩ := exists_charAt h
  simp only [setChar, hc]
  rfl

theorem setChar_of_stands (h : Stands i s) {rest : List Char} (hr : r.toList = c :: rest) :
    setChar (.string s) (.int i) (.string r) =
      .ok (.string (String.ofList (s.toList.set i.toInt.toNat c))) := by
  obtain ⟨d, hd⟩ := exists_charAt h
  simp only [setChar, hd, hr]

theorem exists_setChar_iff (s r : String) (i : Int64) :
    (∃ v, setChar (.string s) (.int i) (.string r) = .ok v) ↔ Stands i s ∧ r ≠ "" := by
  by_cases h : Stands i s
  · rcases hr : r.toList with _ | ⟨c, rest⟩
    · have hempty : r = "" := String.toList_eq_nil_iff.mp hr
      rw [hempty, setChar_of_empty h]
      simp
    · have hne : r ≠ "" := by
        intro hempty
        rw [hempty] at hr
        cases hr
      exact ⟨fun _ => ⟨h, hne⟩, fun _ => ⟨_, setChar_of_stands h hr⟩⟩
  · rw [setChar_of_not_stands h]
    simp [h]

/-- A text with a character replaced has its length, the first character of the replacement at the
index, and its own characters everywhere else. -/
theorem setChar_replaces (h : setChar (.string s) (.int i) (.string r) = .ok v) :
    ∃ u, v = .string u ∧ u.length = s.length ∧
      getChar (.string u) (.int i) = getChar (.string r) (.int 0) ∧
      ∀ j, j ≠ i → getChar (.string u) (.int j) = getChar (.string s) (.int j) := by
  obtain ⟨hstands, hne⟩ := (exists_setChar_iff s r i).mp ⟨v, h⟩
  rcases hr : r.toList with _ | ⟨c, rest⟩
  · exact absurd (String.toList_eq_nil_iff.mp hr) hne
  -- From here on the result is the list of characters with the entry at the index set.
  rw [setChar_of_stands hstands hr] at h
  cases h
  have hlength : (String.ofList (s.toList.set i.toInt.toNat c)).length = s.length := by
    rw [String.length_ofList, List.length_set, String.length_toList]
  refine ⟨_, rfl, hlength, ?_, ?_⟩
  · have hlt : i.toInt.toNat < s.toList.length := by
      obtain ⟨hpos, hlast⟩ := hstands
      rw [String.length_toList]
      omega
    have hnew : (String.ofList (s.toList.set i.toInt.toNat c)).toList[i.toInt.toNat]? = some c := by
      rw [String.toList_ofList, List.getElem?_set_self hlt]
    have hfirst : r.toList[(0 : Int64).toInt.toNat]? = some c := by
      rw [hr]
      rfl
    rw [getChar_of_getElem? hstands.1 hnew, getChar_of_getElem? (by decide) hfirst]
  · intro j hj
    have hsame : charAt (String.ofList (s.toList.set i.toInt.toNat c)) j = charAt s j := by
      apply charAt_congr hlength
      intro hpos
      -- Neither index is negative, so different words are different places.
      have hother : i.toInt.toNat ≠ j.toInt.toNat := by
        intro heq
        apply hj
        apply Int64.toInt_inj.mp
        have hpos' := hstands.1
        omega
      rw [String.toList_ofList, List.getElem?_set_ne hother]
    rw [getChar_eq_map, getChar_eq_map, hsame]

/-- **Texts as arrays of characters.** The length of a text is its number of characters. A character
and its code can be read at an index exactly if it is not negative and less than that number, and
otherwise the error tells the index and the number; what is read is the character at this place. A
character can be made of a code exactly if the code is a Unicode scalar value; the code of a
character gives the character back, and the character of a code the code. Joined texts have the sum
of the lengths and are read one after the other. A character can be replaced exactly if the index
stands in the text, which is looked at first, and the replacement is not empty; the length stays,
the first character of the replacement is at the index, and nothing else has changed. -/
theorem texts_indexed :
    (∀ s : String, length (.string s) = .ok (.int (Int64.ofNat s.length)) ∧
      ((s.length : Int) ≤ Int64.maxValue.toInt → (Int64.ofNat s.length).toInt = s.length ∧
        ∀ i, Stands i s ↔ 0 ≤ i ∧ i < Int64.ofNat s.length)) ∧
    (∀ (s : String) (i : Int64),
      ((∃ v, getChar (.string s) (.int i) = .ok v) ↔ Stands i s) ∧
      ((∃ v, codeAt (.string s) (.int i) = .ok v) ↔ Stands i s) ∧
      (¬Stands i s →
        getChar (.string s) (.int i) = .error (.stringIndexOutOfRange i s.length) ∧
        codeAt (.string s) (.int i) = .error (.stringIndexOutOfRange i s.length)) ∧
      (∀ c, getChar (.string s) (.int i) = .ok (.string (String.ofList [c])) ↔
        0 ≤ i.toInt ∧ s.toList[i.toInt.toNat]? = some c) ∧
      (codeAt (.string s) (.int i) >>= ofCode) = getChar (.string s) (.int i)) ∧
    (∀ n : Int64,
      ((∃ v, ofCode (.int n) = .ok v) ↔ IsScalarValue n.toInt) ∧
      (¬IsScalarValue n.toInt → ofCode (.int n) = .error (.invalidCodePoint n)) ∧
      (IsScalarValue n.toInt →
        (ofCode (.int n) >>= fun v => codeAt v (.int 0)) = .ok (.int n))) ∧
    (∀ s t : String, ∃ u, concat (.string s) (.string t) = .ok (.string u) ∧
      u.length = s.length + t.length ∧
      length (.string u) = .ok (.int (Int64.ofNat s.length + Int64.ofNat t.length)) ∧
      ∀ i, Stands i u →
        (Stands i s ∧ getChar (.string u) (.int i) = getChar (.string s) (.int i)) ∨
          ∃ j : Int64, i.toInt = s.length + j.toInt ∧ Stands j t ∧
            getChar (.string u) (.int i) = getChar (.string t) (.int j)) ∧
    (∀ (s r : String) (i : Int64),
      ((∃ v, setChar (.string s) (.int i) (.string r) = .ok v) ↔ Stands i s ∧ r ≠ "") ∧
      (¬Stands i s → setChar (.string s) (.int i) (.string r) =
        .error (.stringIndexOutOfRange i s.length)) ∧
      (Stands i s → r = "" → setChar (.string s) (.int i) (.string r) = .error .emptyReplacement) ∧
      ∀ v, setChar (.string s) (.int i) (.string r) = .ok v → ∃ u, v = .string u ∧
        u.length = s.length ∧ getChar (.string u) (.int i) = getChar (.string r) (.int 0) ∧
        ∀ j, j ≠ i → getChar (.string u) (.int j) = getChar (.string s) (.int j)) := by
  refine ⟨?_, ?_, ?_, ?_, ?_⟩
  · intro s
    exact ⟨rfl, fun h => ⟨toInt_length h, stands_iff_word h⟩⟩
  · intro s i
    exact ⟨exists_map_charAt_iff, exists_map_charAt_iff,
      fun h => ⟨map_charAt_of_not_stands h, map_charAt_of_not_stands h⟩,
      fun c => getChar_eq_ok_iff, codeAt_ofCode s i⟩
  · intro n
    exact ⟨exists_ofCode_iff n, ofCode_of_not_scalar, ofCode_codeAt⟩
  · intro s t
    have hlength := String.length_append s t
    refine ⟨s ++ t, rfl, hlength, ?_, fun i => getChar_append⟩
    rw [length, hlength, Int64.ofNat_add]
  · intro s r i
    refine ⟨exists_setChar_iff s r i, fun h => setChar_of_not_stands h r, ?_, ?_⟩
    · rintro h rfl
      exact setChar_of_empty h
    · intro v
      exact setChar_replaces

/-- Characters of one, two and three bytes: the last of `"až"` and `"€"` joined stands behind the
first two, and is replaced alone. -/
theorem texts_indexed_threeBytes :
    Stands 2 ("až" ++ "€") ∧ ¬Stands 3 ("až" ++ "€") ∧ IsScalarValue (0x20AC : Int64).toInt ∧
      getChar (.string ("až" ++ "€")) (.int 3) = .error (.stringIndexOutOfRange 3 3) ∧
      (ofCode (.int 0x20AC) >>= fun v => codeAt v (.int 0)) = .ok (.int 0x20AC) ∧
      ∃ u, setChar (.string ("až" ++ "€")) (.int 2) (.string "bc") = .ok (.string u) ∧
        u.length = 3 ∧ getChar (.string u) (.int 2) = getChar (.string "bc") (.int 0) ∧
        getChar (.string u) (.int 1) = getChar (.string ("až" ++ "€")) (.int 1) := by
  have hlast : Stands 2 ("až" ++ "€") := ⟨by decide, by decide⟩
  have hbehind : ¬Stands 3 ("až" ++ "€") := fun h => absurd h.2 (by decide)
  have hscalar : IsScalarValue (0x20AC : Int64).toInt := ⟨by decide, by decide, by decide⟩
  obtain ⟨-, hread, hcode, -, hset⟩ := texts_indexed
  refine ⟨hlast, hbehind, hscalar, ((hread _ 3).2.2.1 hbehind).1, (hcode _).2.2 hscalar, ?_⟩
  obtain ⟨hexists, -, -, hreplaced⟩ := hset ("až" ++ "€") "bc" 2
  obtain ⟨v, hv⟩ := hexists.mpr ⟨hlast, by decide⟩
  obtain ⟨u, rfl, hlength, hnew, hothers⟩ := hreplaced v hv
  exact ⟨u, hv, hlength, hnew, hothers 1 (by decide)⟩

end FrameCode.Operator
