import Classfile.Draft.Class
import Classfile.Outline.Code
import Classfile.Outline.Payload

/-! Outlines of drafts. -/
namespace Classfile

instance : Outlined GuardedRange := ⟨fun r => (r.first, r.last, r.handler, r.catchType)⟩
instance : Outlined VariableScope :=
  ⟨fun s => (s.first, s.last, s.name, s.descriptor, s.slot)⟩

instance : Outlined MethodDraft := ⟨fun d => .record [
  ("flags", d.flags), ("static", d.isStatic), ("name", d.name),
  ("descriptor", d.descriptor.describe), ("class_name", d.owner), ("max_stack", d.maxStack),
  ("max_locals", d.maxLocals), ("code", d.instructions), ("handlers", d.handlers),
  ("lines", d.lines.toList), ("locals", d.scopes), ("local_types", d.typeScopes),
  ("exceptions", d.exceptions), ("annotations", d.annotations),
  ("parameter_annotations", d.parameterAnnotations), ("attributes", d.attributes)]⟩

instance : Outlined FieldDraft := ⟨fun d => .record [
  ("flags", d.flags), ("name", d.name), ("descriptor", d.type.describe),
  ("initial_value", d.initialValue), ("annotations", d.annotations),
  ("attributes", d.attributes)]⟩

/-- The outline of a class: its names have to be in its pool. -/
def ClassDraft.outline (d : ClassDraft) : Except Fault Outline := do
  return .record [
    ("version", d.version), ("flags", d.flags), ("name", ← d.name), ("super", ← d.superName),
    ("interfaces", ← d.interfaceNames), ("fields", d.fields), ("methods", d.methods),
    ("annotations", d.annotations), ("attributes", d.attributes),
    ("pool_size", d.pool.extent)]

end Classfile
