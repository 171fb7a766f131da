import Classfile.Annotation.Binary
import Classfile.Attribute.Payload
import Classfile.Outline.Image

/-! Outlines of what attributes hold, and the payloads by their names. -/
namespace Classfile

namespace ElementValue

mutual

/-- The tag and then the operands. -/
def outlined : ElementValue → Outline
  | number type value => .list [type.letter.toString, value]
  | string text => .list ["s", text]
  | enumeration type name => .list ["e", type, name]
  | typeLiteral descriptor => .list ["c", descriptor]
  | nested type elements => .list ["@", .list [type, .list (outlinedElements [] elements)]]
  | array values => .list ["[", .list (outlinedValues [] values)]

/-- The outline of each value, behind those that `done` holds in reverse. -/
def outlinedValues (done : List Outline) : List ElementValue → List Outline
  | [] => done.reverse
  | value :: values => outlinedValues (value.outlined :: done) values

/-- The outline of each element, behind those that `done` holds in reverse. -/
def outlinedElements (done : List Outline) : List (ConstantIndex × ElementValue) → List Outline
  | [] => done.reverse
  | (name, value) :: elements =>
    outlinedElements (.list [outline name, value.outlined] :: done) elements

end

end ElementValue

instance : Outlined ElementValue := ⟨ElementValue.outlined⟩
instance : Outlined Annotation := ⟨fun a => (a.type, a.elements)⟩
instance : Outlined AnnotationUse :=
  ⟨fun u => .record [("visible", u.visible), ("annotation", u.body)]⟩

instance : Outlined ExceptionHandler := ⟨fun h => (h.start, h.stop, h.handler, h.catchType)⟩
instance : Outlined LineNumber := ⟨fun l => (l.start, l.line)⟩
instance : Outlined VariableRange :=
  ⟨fun r => (r.start, r.length, r.name, r.descriptor, r.slot)⟩

instance : Outlined ConstantValue := ⟨fun p => p.value⟩
instance : Outlined SourceFile := ⟨fun p => p.file⟩
instance : Outlined Signature := ⟨fun p => p.signature⟩
instance : Outlined Exceptions := ⟨fun p => p.types⟩
instance : Outlined LineNumberTable := ⟨fun p => p.lines⟩
instance : Outlined LocalVariableTable := ⟨fun p => p.ranges⟩
instance : Outlined LocalVariableTypeTable := ⟨fun p => p.ranges⟩
instance : Outlined VisibleAnnotations := ⟨fun p => p.annotations⟩
instance : Outlined InvisibleAnnotations := ⟨fun p => p.annotations⟩
instance : Outlined VisibleParameterAnnotations := ⟨fun p => p.parameters⟩
instance : Outlined InvisibleParameterAnnotations := ⟨fun p => p.parameters⟩

instance : Outlined CodeBody := ⟨fun body => .record [
  ("max_stack", body.maxStack), ("max_locals", body.maxLocals), ("code", body.code),
  ("handlers", body.handlers), ("attributes", body.attributes)]⟩

/-- A type of payload. -/
structure PayloadType where
  α : Type
  [payload : Payload α]
  [outlined : Outlined α]

namespace PayloadType

def all : List PayloadType := [
  mk ConstantValue, mk SourceFile, mk Signature, mk Exceptions, mk LineNumberTable,
  mk LocalVariableTable, mk LocalVariableTypeTable, mk CodeBody, mk VisibleAnnotations,
  mk InvisibleAnnotations, mk VisibleParameterAnnotations, mk InvisibleParameterAnnotations]

/-- The type of what an attribute with this name holds. -/
def named? (name : String) : Option PayloadType := all.find? fun type => type.payload.name = name

end PayloadType

end Classfile
