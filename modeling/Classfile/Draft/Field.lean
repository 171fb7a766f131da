import Classfile.Annotation.Uses
import Classfile.Attribute.Payload
import Classfile.Draft.Basic
import Classfile.Image.Member

/-! Fields that can be edited. -/
namespace Classfile

structure FieldDraft where
  flags : AccessFlags .field
  name : String
  type : FieldType
  /-- What a static field begins with. -/
  initialValue : Option ConstantIndex
  annotations : List AnnotationUse
  /-- The attributes that are not modelled above. -/
  attributes : List Attribute

/-- Can a field of the type begin with the constant? Small numbers are all `Integer` constants. -/
def FieldType.admits : FieldType → Constant → Bool
  | .base .int, .integer _ | .base .short, .integer _ | .base .char, .integer _
  | .base .byte, .integer _ | .base .boolean, .integer _ => true
  | .base .long, .long _ => true
  | .base .float, .float _ => true
  | .base .double, .double _ => true
  | type, .string _ => type.isString
  | _, _ => false

namespace FieldDraft

/-- A new field with nothing but a name and a type, which is given by its descriptor. -/
def make (flags : AccessFlags .field) (name descriptor : String) :
    Except DescriptorError FieldDraft := do
  return ⟨flags, name, ← FieldType.parse descriptor, none, [], []⟩

def clearInitialValue (d : FieldDraft) : FieldDraft := { d with initialValue := none }

def addAnnotation (d : FieldDraft) (u : AnnotationUse) : FieldDraft :=
  { d with annotations := d.annotations ++ [u] }

end FieldDraft

/-- Computations that edit a field. -/
abbrev FieldM := DraftM FieldDraft

namespace FieldM

open DraftM

/-- The value has to be a constant that goes with the type. -/
def setInitialValue (value : ConstantIndex) : FieldM Unit := do
  let c ← ask fun _ pool => pool.get value
  let d ← draft
  if d.type.admits c then change fun d => { d with initialValue := some value }
  else throw (.wrongInitialValue d.type c)

def addAttribute {α : Type} [Payload α] (payload : α) : FieldM Unit := do
  let a ← onPool (PoolM.addAttribute payload)
  change fun d => { d with attributes := d.attributes ++ [a] }

end FieldM

namespace FieldDraft

/-- Take in one attribute of a stored field. -/
def absorb (pool : ConstantPool) (d : FieldDraft) (a : Attribute) : Except Fault FieldDraft := do
  let name ← pool.attributeName a
  if let some p ← pool.payload? ConstantValue a then
    (FieldM.setInitialValue p.value).result d pool
  else if isAnnotationAttribute name then return d
  else return { d with attributes := d.attributes ++ [a] }

/-- The draft of a stored field, whose indices have to fit the pool. -/
def ofField (pool : ConstantPool) (f : Field) : Except Fault FieldDraft := do
  let name ← pool.text f.name
  let descriptor ← pool.text f.descriptor
  match make f.flags name descriptor with
  | .error _ => throw (.malformedClass (.badFieldDescriptor name descriptor))
  | .ok d =>
    let d ← f.attributes.foldlM (absorb pool) d
    return { d with annotations := ← pool.annotations f.attributes }

/-- The field as it is stored. What it needs is added to the pool. -/
def build (d : FieldDraft) : PoolM Field := do
  let name ← PoolM.addText d.name
  let descriptor ← PoolM.addText d.type.describe
  let initial ← d.initialValue.toList.mapM fun value => PoolM.addAttribute (ConstantValue.mk value)
  let annotations ← PoolM.addAnnotations d.annotations
  return ⟨d.flags, name, descriptor, initial ++ d.attributes ++ annotations⟩

end FieldDraft

end Classfile
