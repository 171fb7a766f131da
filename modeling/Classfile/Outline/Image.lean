import Classfile.Image.Basic
import Classfile.Outline.Basic

/-! Outlines of constants, attributes, members and class files. -/
namespace Classfile

instance : Outlined ConstantIndex := ⟨fun i => i.value⟩
instance : Outlined Version := ⟨fun v => (v.major, v.minor)⟩
instance {owner : FlagOwner} : Outlined (AccessFlags owner) := ⟨fun flags => flags.bits⟩

/-- The kind and then the operands. Numbers with a fraction are shown by their bits, and those of
long ones as texts. -/
instance : Outlined Constant := ⟨fun c =>
  let operands : List Outline := match c with
    | .utf8 text => [.passage text]
    | .integer value => [value]
    | .float bits => [.bytes (Writer.u32 bits)]
    | .long value => [toString value.toInt]
    | .double bits => [.bytes (Writer.u64 bits)]
    | .typeName i | .string i | .methodType i | .moduleName i | .packageName i => [i]
    | .fieldRef i j | .methodRef _ i j | .nameAndType i j => [i, j]
    | .methodHandle kind i => [kind.name, i]
    | .dynamic bootstrap i | .invokeDynamic bootstrap i => [bootstrap, i]
  .list (c.kind :: operands)⟩

instance : Outlined Attribute :=
  ⟨fun a => .record [("name", a.name), ("info", a.info)]⟩

instance {owner : FlagOwner} : Outlined (Member owner) := ⟨fun m => .record [
  ("flags", m.flags), ("name", m.name), ("descriptor", m.descriptor),
  ("attributes", m.attributes)]⟩

instance : Outlined ClassImage := ⟨fun c => .record [
  ("version", c.version), ("constants", .ends c.constants.toList),
  ("count", c.constants.extent), ("flags", c.flags), ("this", c.thisClass),
  ("super", c.superClass), ("interfaces", c.interfaces), ("fields", c.fields),
  ("methods", c.methods), ("attributes", c.attributes)]⟩

end Classfile
