import FrameCode.Machine.Channel
import FrameCode.Proofs.Encoding
import Mathlib.Data.List.SplitBy

/-!
# The lines of an input

An input is read one line at a time, and each time the bytes up to the next line feed are cut off
what is left. Seen as a whole, the bytes are split after each line feed (`Input.lines`): the lines
together are the bytes, no line is empty, and only the last one may be without a line feed. Cutting
off a line takes the first of these lines (`readLine_eq`), so after any number of lines what is left
is the rest of them, and its lines are the lines that come later (`lines_flatten_drop`).

A line shows its content (`Shows`): without its line feed and one carriage return before it, or as
it is if there is no line feed. The content is a text if its bytes are the encoding of one, and
`decode?` finds exactly this text (`decode?_eq_some_iff`).
-/

namespace FrameCode

namespace Input

variable {bytes body rest line shown : List UInt8}

/-! ## Decoding -/

/-- Decoding finds the text that bytes are the encoding of. -/
theorem decode?_eq_some_iff {text : String} :
    decode? bytes = some text ↔ Text.encoded text = bytes := by
  unfold decode? String.fromUTF8?
  by_cases hvalid : (⟨bytes.toArray⟩ : ByteArray).IsValidUTF8
  · rw [dif_pos hvalid, Option.some.injEq]
    have hself : Text.encoded (.fromUTF8 ⟨bytes.toArray⟩ hvalid) = bytes := rfl
    constructor
    · rintro rfl
      exact hself
    · intro h
      exact Text.encoded_inj (hself.trans h.symm)
  · rw [dif_neg hvalid]
    constructor
    · intro h
      cases h
    · rintro rfl
      exact absurd text.isValidUTF8 hvalid

theorem decode?_encoded (text : String) : decode? (Text.encoded text) = some text :=
  decode?_eq_some_iff.mpr rfl

theorem decode?_eq_none_iff : decode? bytes = none ↔ ∀ text, Text.encoded text ≠ bytes := by
  rw [Option.eq_none_iff_forall_ne_some]
  simp only [ne_eq, decode?_eq_some_iff]

/-! ## Splitting into lines -/

/-- The lines of a sequence of bytes, each with its line feed: the bytes are split after each line
feed, and nothing comes after the last byte. -/
def lines (bytes : List UInt8) : List (List UInt8) :=
  bytes.splitBy fun b _ => b != lineFeed

theorem flatten_lines (bytes : List UInt8) : (lines bytes).flatten = bytes :=
  List.flatten_splitBy _ bytes

/-- Bytes without a line feed stay together, and so does a line feed after them. -/
theorem isChain_of_not_mem (h : lineFeed ∉ body) (last : List UInt8) (hlast : last.length ≤ 1) :
    (body ++ last).IsChain fun b _ => (b != lineFeed) = true := by
  induction body with
  | nil =>
    rcases last with _ | ⟨b, _ | ⟨c, last⟩⟩
    · exact .nil
    · exact .singleton b
    · simp only [List.length_cons] at hlast
      omega
  | cons b body ih =>
    rw [List.mem_cons, not_or] at h
    rw [List.cons_append, List.isChain_cons]
    refine ⟨?_, ih h.2⟩
    intro _ _
    exact bne_iff_ne.mpr (Ne.symm h.1)

theorem lines_of_not_mem (h : lineFeed ∉ bytes) (hne : bytes ≠ []) : lines bytes = [bytes] := by
  have hchain := isChain_of_not_mem h [] (by decide)
  rw [List.append_nil] at hchain
  exact List.splitBy_of_isChain hne hchain

theorem lines_append (h : lineFeed ∉ body) (rest : List UInt8) :
    lines (body ++ lineFeed :: rest) = (body ++ [lineFeed]) :: lines rest := by
  have hsplit : body ++ lineFeed :: rest = (body ++ [lineFeed]) ++ rest := by simp
  have hone : (body ++ [lineFeed]).splitBy (fun b _ => b != lineFeed) = [body ++ [lineFeed]] :=
    List.splitBy_of_isChain (by simp) (isChain_of_not_mem h [lineFeed] (by decide))
  rw [hsplit, lines, List.splitBy_append, hone]
  · rfl
  · -- The split is right behind a line feed, whatever comes next.
    intro x hx y _
    rw [List.getLast?_concat, Option.mem_some_iff] at hx
    rw [← hx]
    rfl

/-- The lines from some line on are the lines of their bytes. -/
theorem lines_flatten_drop (bytes : List UInt8) (k : Nat) :
    lines ((lines bytes).drop k).flatten = (lines bytes).drop k := by
  unfold lines
  apply List.splitBy_flatten
  · intro hmem
    exact List.nil_notMem_splitBy _ _ (List.mem_of_mem_drop hmem)
  · intro line hline
    exact List.isChain_of_mem_splitBy (List.mem_of_mem_drop hline)
  · exact (List.isChain_getLast_head_splitBy (fun b _ => b != lineFeed) bytes).drop k

/-! ## The content of a line -/

/-- What a line shows: its bytes without the line feed at its end, and without a carriage return
right before it. A line without line feed shows all its bytes. -/
inductive Shows : List UInt8 → List UInt8 → Prop
  | ended {body : List UInt8} (h : body.getLast? ≠ some carriageReturn) :
    Shows (body ++ [lineFeed]) body
  | returned (body : List UInt8) : Shows (body ++ [carriageReturn, lineFeed]) body
  | unended {line : List UInt8} (h : line.getLast? ≠ some lineFeed) : Shows line line

theorem content_ended (h : body.getLast? ≠ some carriageReturn) :
    content (body ++ [lineFeed]) = body := by
  simp [content, h]

theorem content_returned (body : List UInt8) :
    content (body ++ [carriageReturn, lineFeed]) = body := by
  have hbody : (body ++ [carriageReturn, lineFeed]).dropLast = body ++ [carriageReturn] := by simp
  simp [content, hbody]

theorem content_unended (h : line.getLast? ≠ some lineFeed) : content line = line := by
  simp [content, h]

theorem shows_content (line : List UInt8) : Shows line (content line) := by
  by_cases hlast : line.getLast? = some lineFeed
  · obtain ⟨body, rfl⟩ := List.getLast?_eq_some_iff.mp hlast
    by_cases hreturn : body.getLast? = some carriageReturn
    · obtain ⟨inner, rfl⟩ := List.getLast?_eq_some_iff.mp hreturn
      rw [List.append_assoc, List.singleton_append, content_returned]
      exact .returned inner
    · rw [content_ended hreturn]
      exact .ended hreturn
  · rw [content_unended hlast]
    exact .unended hlast

/-- A line shows one thing only. -/
theorem shows_iff : Shows line shown ↔ content line = shown := by
  constructor
  · intro h
    cases h with
    | ended h => exact content_ended h
    | returned => exact content_returned shown
    | unended h => exact content_unended h
  · rintro rfl
    exact shows_content line

/-! ## Reading lines -/

/-- What is cut off is the first line with its line feed, or everything if there is none. -/
theorem cutLine_append (h : lineFeed ∉ body) (rest : List UInt8) :
    cutLine (body ++ lineFeed :: rest) = (body ++ [lineFeed], rest) := by
  induction body with
  | nil => simp [cutLine]
  | cons b body ih =>
    rw [List.mem_cons, not_or] at h
    rw [List.cons_append, cutLine, if_neg (Ne.symm h.1), ih h.2]
    rfl

theorem cutLine_of_not_mem (h : lineFeed ∉ bytes) : cutLine bytes = (bytes, []) := by
  induction bytes with
  | nil => rfl
  | cons b bytes ih =>
    rw [List.mem_cons, not_or] at h
    rw [cutLine, if_neg (Ne.symm h.1), ih h.2]

/-- The bytes that are cut off are the first line, and those left are the other lines. -/
theorem cutLine_eq (hne : bytes ≠ []) :
    ∃ line, lines bytes = line :: lines (cutLine bytes).2 ∧ (cutLine bytes).1 = line ∧
      line ≠ [] := by
  by_cases hmem : lineFeed ∈ bytes
  · obtain ⟨body, rest, rfl, hbody⟩ := List.eq_append_cons_of_mem hmem
    rw [cutLine_append hbody, lines_append hbody]
    exact ⟨_, rfl, rfl, by simp⟩
  · rw [cutLine_of_not_mem hmem, lines_of_not_mem hmem hne]
    exact ⟨bytes, rfl, rfl, hne⟩

/-- **Reading takes one line.** From an input that does not fail, the text of what the first line
shows is read, if there is a line and it shows a text, and the other lines are left. -/
theorem readLine_eq (bytes : List UInt8) :
    readLine { rest := bytes } =
      (.ok ((lines bytes).head?.bind fun line => decode? (content line)),
        { rest := (lines bytes).tail.flatten }) := by
  by_cases hne : bytes = []
  · rw [hne]
    rfl
  · obtain ⟨line, hlines, hline, hnonempty⟩ := cutLine_eq hne
    have hempty : line.isEmpty = false := List.isEmpty_eq_false_iff.mpr hnonempty
    unfold readLine
    simp only [hlines, hline, hempty, Bool.false_and, Bool.false_eq_true, if_false,
      List.head?_cons, Option.bind_some, List.tail_cons, flatten_lines]

end Input

end FrameCode
