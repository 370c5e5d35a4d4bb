/-!
# Text: blank characters, surrounding blanks and letter case

Literals, attribute values and input lines share three small rules on text, and every reader of the
library goes through them.

* A **blank** is a character with the Unicode property White_Space (`isBlank`). The no-break spaces
  belong to it; the zero-width space and the byte order mark do not.
* **Trimming** (`trim`) removes the blanks at both ends of a text and none inside it.
* **Case** is folded for the ASCII letters only (`sameLetters`), so no two texts that differ in
  another script are ever taken for each other.

Texts are read as lists of characters, which is what the recursive readers walk along.
-/

namespace FrameCode.Text

/-! ## Blanks -/

/-- The characters with the Unicode property White_Space. -/
def isBlank (c : Char) : Bool :=
  let n := c.toNat
  (0x09 ≤ n && n ≤ 0x0D) || n == 0x20 || n == 0x85 || n == 0xA0 || n == 0x1680
    || (0x2000 ≤ n && n ≤ 0x200A) || n == 0x2028 || n == 0x2029 || n == 0x202F
    || n == 0x205F || n == 0x3000

/-- A text without the blanks it ends in. -/
def dropEndBlanks (cs : List Char) : List Char :=
  (cs.reverse.dropWhile isBlank).reverse

/-- A text without the blanks it begins and ends with. -/
def trim (cs : List Char) : List Char :=
  dropEndBlanks (cs.dropWhile isBlank)

/-- `trim` on strings. -/
def trimmed (s : String) : String :=
  String.ofList (trim s.toList)

/-! ## Letter case -/

/-- A text with its ASCII capitals turned into small letters. -/
def foldCase (cs : List Char) : List Char :=
  cs.map Char.toLower

/-- Two texts that are equal once the case of ASCII letters is ignored. -/
def sameLetters (a b : List Char) : Bool :=
  foldCase a == foldCase b

/-! ## Signs and digits -/

/-- A text split after its sign: whether the sign is a minus, and what follows. A text without a
sign counts as positive. -/
def takeSign : List Char → Bool × List Char
  | '-' :: rest => (true, rest)
  | '+' :: rest => (false, rest)
  | cs => (false, cs)

/-- The value of an ASCII letter or digit as a digit of the given base, if it is one. Letters of
either case stand for the digits from ten on. -/
def digitValue? (base : Nat) (c : Char) : Option Nat :=
  let n := c.toNat
  let d? :=
    if 0x30 ≤ n ∧ n ≤ 0x39 then some (n - 0x30)
    else if 0x41 ≤ n ∧ n ≤ 0x5A then some (n - 0x41 + 10)
    else if 0x61 ≤ n ∧ n ≤ 0x7A then some (n - 0x61 + 10)
    else none
  d?.filter (· < base)

/-- The ten ASCII digits. -/
def isDigit (c : Char) : Bool :=
  0x30 ≤ c.toNat && c.toNat ≤ 0x39

/-- The number that a sequence of digits denotes in a base, most significant digit first. -/
def valueOf (base : Nat) (digits : List Nat) : Nat :=
  digits.foldl (fun n d => n * base + d) 0

/-- A whole text read as digits of a base; `none` as soon as one character is no digit. -/
def digits? (base : Nat) (cs : List Char) : Option (List Nat) :=
  cs.mapM (digitValue? base)

/-! ## Cutting a text at a character -/

/-- The part of a text before the first character that satisfies `p`, and the part after it if there
is such a character. -/
def cutAt (p : Char → Bool) : List Char → List Char × Option (List Char)
  | [] => ([], none)
  | c :: cs =>
    if p c then ([], some cs)
    else ((c :: (cutAt p cs).1), (cutAt p cs).2)

/-- A text is cut at the first character that satisfies `p`. -/
theorem cutAt_append {p : Char → Bool} {c : Char} {before after : List Char}
    (hbefore : ∀ d ∈ before, p d = false) (hc : p c = true) :
    cutAt p (before ++ c :: after) = (before, some after) := by
  induction before with
  | nil => simp [cutAt, hc]
  | cons d before ih =>
    have hd := hbefore d (List.mem_cons_self ..)
    have hrest := ih fun d' hd' => hbefore d' (List.mem_cons_of_mem _ hd')
    simp [cutAt, hd, hrest]

/-- The parts of a text that was cut give the text again: the first part alone if nothing satisfied
`p`, and otherwise both with the character between them. -/
theorem eq_of_cutAt (p : Char → Bool) (cs : List Char) :
    ((cutAt p cs).2 = none ∧ cs = (cutAt p cs).1) ∨
      ∃ c after, p c = true ∧ (cutAt p cs).2 = some after ∧ cs = (cutAt p cs).1 ++ c :: after := by
  induction cs with
  | nil => simp [cutAt]
  | cons d cs ih =>
    by_cases hd : p d = true
    · simp [cutAt, hd]
    · rcases ih with ⟨hnone, hcs⟩ | ⟨c, after, hc, hsome, hcs⟩
      · left
        simp [cutAt, hd, hnone, ← hcs]
      · right
        refine ⟨c, after, hc, ?_, ?_⟩
        · simp [cutAt, hd, hsome]
        · simp [cutAt, hd, ← hcs]

/-! ## Joining and writing -/

/-- The decimal text of an integer with a sign in front, also when it is positive. -/
def signedDecimal (n : Int) : String :=
  match n with
  | .ofNat m => "+" ++ Nat.repr m
  | .negSucc m => "-" ++ Nat.repr (m + 1)

/-- The decimal text of an integer, a minus in front if it is negative. -/
def decimal (n : Int) : String :=
  match n with
  | .ofNat m => Nat.repr m
  | .negSucc m => "-" ++ Nat.repr (m + 1)

/-- Texts joined with a separator between neighbours. -/
def joinWith (separator : String) : List String → String
  | [] => ""
  | [s] => s
  | s :: rest => s ++ separator ++ joinWith separator rest

end FrameCode.Text
