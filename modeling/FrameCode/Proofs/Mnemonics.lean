import FrameCode.Language.Opcode
import Mathlib.Data.List.Nodup

/-!
# Opcodes and their mnemonics

Every opcode is in the list of all, and no two share a mnemonic, whether or not the case of letters
counts. So an opcode is known by its mnemonic, and opcodes can be arranged by it.
-/

namespace FrameCode.Opcode

open FrameCode.Text

theorem mem_all (op : Opcode) : op ∈ all := by
  cases op <;> decide

/-- No two mnemonics are the same in small letters. -/
theorem nodup_mnemonics : (all.map fun op => foldCase op.mnemonic.toList).Nodup := by
  decide +kernel

theorem nodup_all : all.Nodup :=
  nodup_mnemonics.of_map

theorem eq_of_sameLetters {op op' : Opcode}
    (h : foldCase op.mnemonic.toList = foldCase op'.mnemonic.toList) : op = op' :=
  List.inj_on_of_nodup_map nodup_mnemonics (mem_all op) (mem_all op') h

theorem eq_of_mnemonic {op op' : Opcode} (h : op.mnemonic = op'.mnemonic) : op = op' :=
  eq_of_sameLetters (by rw [h])

/-- An opcode is known by its mnemonic, the case of letters ignored. -/
theorem ofMnemonic?_eq_some_iff {s : String} {op : Opcode} :
    ofMnemonic? s = some op ↔ sameLetters op.mnemonic.toList s.toList = true := by
  unfold ofMnemonic?
  constructor
  · intro h
    have hletters := List.find?_some h
    exact hletters
  · intro h
    have hsome : (all.find? fun op => sameLetters op.mnemonic.toList s.toList).isSome = true :=
      List.find?_isSome.mpr ⟨op, mem_all op, h⟩
    obtain ⟨op', hop'⟩ := Option.isSome_iff_exists.mp hsome
    have hletters := List.find?_some hop'
    unfold sameLetters at h hletters
    rw [hop', eq_of_sameLetters ((eq_of_beq hletters).trans (eq_of_beq h).symm)]

end FrameCode.Opcode
