import FrameCode.Text

/-!
# Flags of the command line

Every argument of the command line is a flag, by itself, with a value after an equals sign, or with
its value in the next argument. Only the full names below are known.
-/

namespace FrameCode.CommandLine

/-- The flags of the interpreter. -/
inductive Flag where
  | help
  | source
  | input
  | stats
  | executed
  | hot
  | peak
  | frequent
  | print
  | lineBreak
deriving DecidableEq, Inhabited

namespace Flag

def text : Flag → String
  | help => "--help"
  | source => "--source"
  | input => "--input"
  | stats => "--stats"
  | executed => "--insts"
  | hot => "--hot"
  | peak => "--vars"
  | frequent => "--frequent"
  | print => "--print"
  | lineBreak => "--eol"

def all : List Flag :=
  [help, source, input, stats, executed, hot, peak, frequent, print, lineBreak]

/-- The flag with a name. -/
def ofText? (s : String) : Option Flag :=
  all.find? (·.text == s)

/-- Whether a flag comes with a value. -/
def takesValue : Flag → Bool
  | source | input | stats | print => true
  | _ => false

end Flag

/-- An argument split at its first equals sign: the name of the flag, and the value attached to it,
if any. -/
def splitArgument (arg : String) : String × Option String :=
  match Text.cutAt (· == '=') arg.toList with
  | (name, value?) => (String.ofList name, value?.map String.ofList)

/-! ## Names and values -/

variable {arg name value : String} {flag : Flag}

theorem text_of_ofText? (h : Flag.ofText? name = some flag) : flag.text = name := by
  have hbeq := List.find?_some h
  exact eq_of_beq hbeq

@[simp] theorem ofText?_text (flag : Flag) : Flag.ofText? flag.text = some flag := by
  cases flag <;> decide

/-- The name of a flag has no value attached. -/
@[simp] theorem splitArgument_text (flag : Flag) : splitArgument flag.text = (flag.text, none) := by
  cases flag <;> decide

/-- A value that is attached starts behind the first equals sign and may hold others. -/
@[simp] theorem splitArgument_attached (flag : Flag) (value : String) :
    splitArgument (flag.text ++ "=" ++ value) = (flag.text, some value) := by
  have hnames : ∀ flag : Flag, flag.text.toList.all (· != '=') = true := by
    intro flag
    cases flag <;> decide
  have hname : ∀ c ∈ flag.text.toList, (c == '=') = false := by
    intro c hc
    simpa using List.all_eq_true.mp (hnames flag) c hc
  have hcut : Text.cutAt (· == '=') (flag.text.toList ++ '=' :: value.toList) =
      (flag.text.toList, some value.toList) := Text.cutAt_append hname (beq_self_eq_true '=')
  unfold splitArgument
  simp [hcut]

/-- An argument without a value attached is the name of its flag. -/
theorem fst_splitArgument_of_none (h : (splitArgument arg).2 = none) :
    (splitArgument arg).1 = arg := by
  have hcut : (Text.cutAt (· == '=') arg.toList).2 = none := Option.map_eq_none_iff.mp h
  rcases Text.eq_of_cutAt (· == '=') arg.toList with ⟨-, hcs⟩ | ⟨c, after, -, hsome, -⟩
  · show String.ofList (Text.cutAt (· == '=') arg.toList).1 = arg
    rw [← hcs, String.ofList_toList]
  · rw [hcut] at hsome
    cases hsome

/-- An argument with a value attached is a name, an equals sign and the value. -/
theorem eq_of_splitArgument_some (h : splitArgument arg = (name, some value)) :
    arg = name ++ "=" ++ value := by
  obtain ⟨hname, hvalue⟩ := Prod.mk.inj h
  obtain ⟨after, hafter, rfl⟩ := Option.map_eq_some_iff.mp hvalue
  rcases Text.eq_of_cutAt (· == '=') arg.toList with ⟨hnone, -⟩ | ⟨c, after', hc, hsome, hcs⟩
  · rw [hafter] at hnone
    cases hnone
  · rw [hafter, Option.some.injEq] at hsome
    have hsign : c = '=' := eq_of_beq hc
    apply String.toList_inj.mp
    rw [hcs, ← hname, hsome, hsign]
    simp

end FrameCode.CommandLine
