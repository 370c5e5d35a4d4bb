import FrameCode.Proofs.Arguments
import FrameCode.Proofs.Mnemonics

/-!
# Valid instruction elements

An instruction element gives an order, an opcode and operands. This file says what a valid element
is without saying how it is checked: `Denotes e i` tells that the element `e` gives the instruction
`i`. The order is a decimal number from one to `2 ^ 32 - 1` that may have a sign and leading zeros,
the opcode is known by its mnemonic in letters of any case, and the operands are arranged under the
names of their positions and fit the signature of the opcode.

The checks of loading find exactly this (`instruction_eq_ok_iff`). When one of them fails it is an
error of structure, whichever it is (`instruction_structural`).
-/

namespace FrameCode

open FrameCode.Checks FrameCode.Text

namespace Source

open FrameCode.Document

variable {e : Element} {i : Instruction} {cs : List Char} {n : Nat}

/-! ## Orders -/

/-- The integers in decimal notation: an optional sign and at least one digit. -/
inductive DecimalInteger : List Char → Int → Prop
  | unsigned {ds : List Char} (hne : ds ≠ []) (hdigits : ∀ c ∈ ds, isDigit c = true) :
    DecimalInteger ds (Nat.ofDigitChars 10 ds 0)
  | plus {ds : List Char} (hne : ds ≠ []) (hdigits : ∀ c ∈ ds, isDigit c = true) :
    DecimalInteger ('+' :: ds) (Nat.ofDigitChars 10 ds 0)
  | minus {ds : List Char} (hne : ds ≠ []) (hdigits : ∀ c ∈ ds, isDigit c = true) :
    DecimalInteger ('-' :: ds) (-(Nat.ofDigitChars 10 ds 0 : Int))

/-- A sign is taken off, or there is none. -/
theorem takeSign_cases (cs : List Char) :
    (∃ ds, cs = '-' :: ds ∧ takeSign cs = (true, ds)) ∨
      (∃ ds, cs = '+' :: ds ∧ takeSign cs = (false, ds)) ∨ takeSign cs = (false, cs) := by
  unfold takeSign
  split
  · exact .inl ⟨_, rfl, rfl⟩
  · exact .inr (.inl ⟨_, rfl, rfl⟩)
  · exact .inr (.inr rfl)

/-- An order is read from the digits behind a sign, which must not be a minus. -/
theorem orderOf?_eq_some_iff_digits :
    orderOf? cs = some n ↔
      (takeSign cs).1 = false ∧ (takeSign cs).2 ≠ [] ∧
        (∀ c ∈ (takeSign cs).2, isDigit c = true) ∧ Nat.ofDigitChars 10 (takeSign cs).2 0 = n ∧
        1 ≤ n ∧ n < UInt32.size := by
  unfold orderOf?
  obtain ⟨negative, ds⟩ := takeSign cs
  dsimp only
  -- What is refused before a digit is read contradicts the first two conditions.
  by_cases hrefused : (negative || ds.isEmpty) = true
  · rw [if_pos hrefused]
    simp only [Bool.or_eq_true, List.isEmpty_iff] at hrefused
    rcases hrefused with rfl | rfl
    · simp
    · simp
  · rw [if_neg hrefused, Option.bind_eq_some_iff]
    simp only [Bool.or_eq_true, List.isEmpty_iff, not_or, Bool.not_eq_true] at hrefused
    constructor
    · rintro ⟨ns, hns, h⟩
      obtain ⟨hdigits, rfl⟩ := digits?_ten_iff.mp hns
      rw [valueOf_ten] at h
      split at h
      · rename_i hrange
        cases h
        exact ⟨hrefused.1, hrefused.2, hdigits, rfl, hrange⟩
      · cases h
    · rintro ⟨-, -, hdigits, rfl, hrange⟩
      refine ⟨_, digits?_ten_iff.mpr ⟨hdigits, rfl⟩, ?_⟩
      rw [valueOf_ten]
      exact if_pos hrange

/-- An order is a decimal integer from one to `2 ^ 32 - 1`. -/
theorem orderOf?_eq_some_iff :
    orderOf? cs = some n ↔ DecimalInteger cs n ∧ 1 ≤ n ∧ n < UInt32.size := by
  rw [orderOf?_eq_some_iff_digits]
  constructor
  · rintro ⟨hsign, hne, hdigits, hvalue, hrange⟩
    refine ⟨?_, hrange⟩
    rw [← hvalue]
    rcases takeSign_cases cs with ⟨ds, rfl, -⟩ | ⟨ds, rfl, -⟩ | h
    · cases hsign
    · exact .plus hne hdigits
    · rw [h] at hne hdigits ⊢
      exact .unsigned hne hdigits
  · rintro ⟨hdecimal, hrange⟩
    generalize hz : (n : Int) = z at hdecimal
    cases hdecimal with
    | unsigned hne hdigits =>
      rw [takeSign_of_digits hdigits]
      exact ⟨rfl, hne, hdigits, (Int.ofNat.inj hz).symm, hrange⟩
    | plus hne hdigits => exact ⟨rfl, hne, hdigits, (Int.ofNat.inj hz).symm, hrange⟩
    | minus hne hdigits =>
      -- A number behind a minus is not positive.
      omega

theorem order_eq_ok_iff {text : String} :
    order text = .ok n ↔ DecimalInteger (trim text.toList) n ∧ 1 ≤ n ∧ n < UInt32.size := by
  rw [← orderOf?_eq_some_iff]
  unfold order
  split
  · rename_i m h
    simp [h]
  · rename_i h
    simp [h]

/-! ## Opcodes and operands -/

theorem opcode_eq_ok_iff {op : Opcode} :
    opcode n e = .ok op ↔
      ∃ token, e.attribute? "opcode" = some token ∧
        sameLetters op.mnemonic.toList (trim token.toList) = true := by
  unfold opcode
  simp only [bind_eq_ok, required_eq_ok_iff]
  refine exists_congr fun token => and_congr_right fun _ => ?_
  have hmnemonic := @Opcode.ofMnemonic?_eq_some_iff (trimmed token) op
  rw [trimmed, String.toList_ofList, ← trimmed] at hmnemonic
  rw [← hmnemonic]
  split
  · rename_i op' h
    simp [h]
  · rename_i h
    simp [h]

theorem misfit?_eq_none_iff {args : List Operand} {kinds : List OperandClass} :
    misfit? args kinds = none ↔
      ∀ (n : Nat) (a : Operand) (kind : OperandClass), args[n]? = some a → kinds[n]? = some kind →
        a.fits kind = true := by
  constructor
  · intro h n a kind ha hk
    exact fits_of_misfit? h ha hk
  · intro h
    unfold misfit?
    rw [Option.map_eq_none_iff, List.findIdx?_eq_none_iff]
    rintro ⟨a, kind⟩ hmem
    obtain ⟨n, hn⟩ := List.mem_iff_getElem?.mp hmem
    obtain ⟨ha, hk⟩ := List.getElem?_zip_eq_some.mp hn
    simpa using h n a kind ha hk

theorem validateArguments_eq_ok_iff {op : Opcode} {args : List Operand} :
    validateArguments n op args = .ok () ↔
      misfit? args op.signature = none ∧ (op = .read → args[1]? ≠ some (.type .nil)) := by
  constructor
  · intro h
    obtain ⟨hfit, hread⟩ := validateArguments_eq_ok h
    exact ⟨hfit, fun hop hnil => hread ⟨hop, hnil⟩⟩
  · rintro ⟨hfit, hread⟩
    unfold validateArguments
    rw [hfit]
    exact if_neg fun h => hread h.1 h.2

/-! ## Instructions -/

/-- An element gives an instruction. The place of the instruction in a program is not its
concern. -/
structure Denotes (e : Element) (i : Instruction) : Prop where
  tag : e.tag = "instruction"
  order : ∃ text, e.attribute? "order" = some text ∧ DecimalInteger (trim text.toList) i.order ∧
    1 ≤ i.order ∧ i.order < UInt32.size
  opcode : ∃ token, e.attribute? "opcode" = some token ∧
    sameLetters i.opcode.mnemonic.toList (trim token.toList) = true
  arguments : Arranged i.opcode.arity e.children i.args
  wellFormed : i.WellFormed

/-- **Instruction elements.** An element is accepted exactly if it gives an instruction, which is
then the one that is read. -/
theorem instruction_eq_ok_iff : instruction e = .ok i ↔ Denotes e i ∧ i.index = 0 := by
  constructor
  · intro h
    have hwellFormed := wellFormed_of_instruction h
    unfold instruction at h
    split at h
    · cases h
    · rename_i htag
      obtain ⟨text, htext, h⟩ := bind_eq_ok.mp h
      obtain ⟨n, hn, h⟩ := bind_eq_ok.mp h
      obtain ⟨op, hop, h⟩ := bind_eq_ok.mp h
      obtain ⟨args, hargs, h⟩ := bind_eq_ok.mp h
      obtain ⟨_, -, h⟩ := bind_eq_ok.mp h
      cases h
      exact ⟨{
        tag := Decidable.not_not.mp htag
        order := ⟨text, required_eq_ok_iff.mp htext, order_eq_ok_iff.mp hn⟩
        opcode := opcode_eq_ok_iff.mp hop
        arguments := arguments_eq_ok_iff.mp hargs
        wellFormed := hwellFormed }, rfl⟩
  · rintro ⟨⟨htag, ⟨text, htext, horder⟩, hopcode, harguments, hwellFormed⟩, hindex⟩
    have htext := required_eq_ok_iff.mpr htext
    have horder := order_eq_ok_iff.mpr horder
    have hopcode : Source.opcode i.order e = .ok i.opcode := opcode_eq_ok_iff.mpr hopcode
    have harguments : Source.arguments i.order i.opcode e = .ok i.args :=
      arguments_eq_ok_iff.mpr harguments
    have hvalid : validateArguments i.order i.opcode i.args = .ok () :=
      validateArguments_eq_ok_iff.mpr
        ⟨misfit?_eq_none_iff.mpr hwellFormed.fits, hwellFormed.readable⟩
    unfold instruction
    rw [if_neg (not_not_intro htag)]
    simp only [htext, horder, hopcode, harguments, hvalid, ok_bind, pure_eq, ← hindex]

/-! ## Errors of structure -/

/-- The errors of a document that is well-formed but does not hold a program. -/
def Structural (e : SourceError) : Prop :=
  e.exitCode = 32

theorem required_structural (e : Element) (name : String) :
    FailsOnly Structural (required e name) := by
  unfold required
  split
  · exact failsOnly_ok _
  · exact failsOnly_error rfl

theorem order_structural (text : String) : FailsOnly Structural (order text) := by
  unfold order
  split
  · exact failsOnly_ok _
  · exact failsOnly_error rfl

theorem opcode_structural (n : Nat) (e : Element) : FailsOnly Structural (opcode n e) := by
  refine failsOnly_bind (required_structural e _) fun token _ => ?_
  split
  · exact failsOnly_ok _
  · exact failsOnly_error rfl

theorem argument_structural (n : Nat) (e : Element) : FailsOnly Structural (argument n e) := by
  refine failsOnly_bind (required_structural e _) fun kind _ => ?_
  unfold Argument.operand
  split
  · exact failsOnly_error rfl
  · split
    · exact failsOnly_ok _
    · exact failsOnly_error rfl

theorem fill_structural (n arity : Nat) (found : List (Option Operand)) (e : Element) :
    FailsOnly Structural (fill n arity found e) := by
  unfold fill
  split
  · exact failsOnly_error rfl
  · split
    · exact failsOnly_error rfl
    · exact failsOnly_bind (argument_structural n e) fun _ _ => failsOnly_ok _

theorem arguments_structural (n : Nat) (op : Opcode) (e : Element) :
    FailsOnly Structural (arguments n op e) := by
  unfold arguments
  dsimp only
  split
  · exact failsOnly_error rfl
  · refine failsOnly_bind ?_ fun _ _ => failsOnly_ok _
    exact failsOnly_foldlM (fun found c => fill_structural n op.arity found c) _ _

theorem validateArguments_structural (n : Nat) (op : Opcode) (args : List Operand) :
    FailsOnly Structural (validateArguments n op args) := by
  unfold validateArguments
  split
  · exact failsOnly_error rfl
  · split
    · exact failsOnly_error rfl
    · exact failsOnly_ok _

/-- Whatever is wrong with an instruction element, it is an error of structure. -/
theorem instruction_structural (e : Element) : FailsOnly Structural (instruction e) := by
  unfold instruction
  split
  · exact failsOnly_error rfl
  · refine failsOnly_bind (required_structural e _) fun text _ => ?_
    refine failsOnly_bind (order_structural text) fun n _ => ?_
    refine failsOnly_bind (opcode_structural n e) fun op _ => ?_
    refine failsOnly_bind (arguments_structural n op e) fun args _ => ?_
    exact failsOnly_bind (validateArguments_structural n op args) fun _ _ => failsOnly_ok _

end Source

end FrameCode
