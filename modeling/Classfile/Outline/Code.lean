import Classfile.Code.Layout
import Classfile.Descriptor.Basic
import Classfile.Outline.Image

/-! Outlines of types and of code. -/
namespace Classfile

/-- The outline of a type that is no array. -/
def FieldType.elementOutline : FieldType → Outline
  | base type => type.keyword
  | object name => .record [("object", name)]
  | array _ => .absent

instance : Outlined FieldType := ⟨fun type =>
  match type.dimensions with
  | (0, type) => type.elementOutline
  | (count, type) => .record [("array", count), ("of", type.elementOutline)]⟩

instance : Outlined Handle := ⟨fun h => h.describe⟩
instance : Outlined Hook := ⟨fun hook => hook.name⟩

/-- The mnemonic and then the operands. -/
instance : Outlined (Instruction Handle) := ⟨fun i =>
  let operands : List Outline := match i with
    | .simple _ => []
    | .pushByte value => [value]
    | .pushShort value => [value]
    | .constant i | .wideConstant i | .field _ i | .invoke _ i | .invokeDynamic i
    | .typeOp _ i => [i]
    | .load _ slot | .store _ slot | .ret slot => [slot]
    | .increment slot amount => [slot, amount]
    | .branch _ target | .jump _ target | .wideJump _ target => [target]
    | .tableSwitch otherwise low cases => [otherwise, low, cases]
    | .lookupSwitch otherwise cases => [otherwise, cases]
    | .invokeInterface i count | .multiNewArray i count => [i, count]
    | .newArray type => [type.keyword]
  .list (i.opcode.mnemonic :: operands)⟩

/-- The handle, the offset and the outline of each instruction. -/
instance : Outlined InstructionSeq := ⟨fun s =>
  .ends ((s.layout.zip s).map fun ((offset, placed), i) => (placed.handle, offset, i))⟩

end Classfile
