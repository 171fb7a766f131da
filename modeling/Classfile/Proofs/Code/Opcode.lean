import Classfile.Code.Decoding
import Mathlib.Data.List.Chain
import Mathlib.Data.List.Nodup

/-! The table of opcodes: it is complete, and each opcode is found by its byte. -/
namespace Classfile

namespace Opcode

/-- The operation of an opcode that has no operands. -/
def simple? : Opcode → Option SimpleOp
  | simple op => some op
  | _ => none

theorem simples_getElem? (op : SimpleOp) :
    (all.filterMap simple?)[op.ctorIdx]? = some op := by
  cases op <;> rfl

theorem mem_all (o : Opcode) : o ∈ all := by
  cases o with
  | simple op =>
    obtain ⟨o, ho, h⟩ := List.mem_filterMap.mp (List.mem_of_getElem? (simples_getElem? op))
    cases o <;> cases h
    exact ho
  | load type => cases type <;> decide
  | store type => cases type <;> decide
  | branch condition => cases condition <;> decide
  | jump kind => cases kind <;> decide
  | field access => cases access <;> decide
  | invoke mode => cases mode <;> decide
  | typeOp operation => cases operation <;> decide
  | wideJump kind => cases kind <;> decide
  | _ => decide

theorem bytes_increase : (all.map byte).IsChain (· < ·) := by decide +kernel

theorem byte_inj {o p : Opcode} (h : o.byte = p.byte) : o = p := by
  have hp := List.isChain_iff_pairwise.mp bytes_increase
  have hn : (all.map byte).Nodup := hp.imp UInt8.ne_of_lt
  exact List.inj_on_of_nodup_map hn (mem_all o) (mem_all p) h

theorem ofByte?_byte (o : Opcode) : ofByte? o.byte = some o := by
  cases h : ofByte? o.byte with
  | none =>
    have hne := List.find?_eq_none.mp h o (mem_all o)
    simp at hne
  | some p =>
    have he : p.byte = o.byte := by simpa using List.find?_some h
    rw [byte_inj he]

/-- No byte of an opcode has another meaning as well. -/
theorem byte_dispatch (o : Opcode) : o.byte ≠ widePrefixByte ∧ o.byte ≠ longConstantByte ∧
    Instruction.ofShortByte? o.byte = none := by
  have h : ∀ o ∈ all, o.byte ≠ widePrefixByte ∧ o.byte ≠ longConstantByte ∧
      Instruction.ofShortByte? o.byte = none := by decide +kernel
  exact h o (mem_all o)

end Opcode

namespace Instruction

variable {type : VariableType} {slot : UInt16}

theorem slot_lt_four (h : slot.toNat < 4) : slot = 0 ∨ slot = 1 ∨ slot = 2 ∨ slot = 3 := by
  simp only [← UInt16.toNat_inj]
  change slot.toNat = 0 ∨ slot.toNat = 1 ∨ slot.toNat = 2 ∨ slot.toNat = 3
  omega

theorem ofShortByte?_load (h : slot.toNat < 4) :
    ofShortByte? (shortLoadByte + 4 * type.rank + slot.toUInt8) = some (load type slot) := by
  obtain rfl | rfl | rfl | rfl := slot_lt_four h <;> cases type <;> decide

theorem ofShortByte?_store (h : slot.toNat < 4) :
    ofShortByte? (shortStoreByte + 4 * type.rank + slot.toUInt8) = some (store type slot) := by
  obtain rfl | rfl | rfl | rfl := slot_lt_four h <;> cases type <;> decide

end Instruction

end Classfile
