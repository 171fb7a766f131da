import Classfile.Annotation.Check

/-!
The annotations of something, and the attributes that hold them. Visible and invisible annotations
are kept in attributes of their own; an attribute that would hold none is left out, and its name is
not added to the pool.
-/
namespace Classfile

namespace AnnotationUse

/-- A use of a new annotation without elements. The type is given as a descriptor. -/
def make (type : String) (visible : Bool) : PoolM AnnotationUse := do
  return ⟨⟨← PoolM.addText type, []⟩, visible⟩

def addElement (u : AnnotationUse) (name : String) (value : ElementValue) :
    PoolM AnnotationUse := do
  let name ← PoolM.addText name
  return { u with body := ⟨u.body.type, u.body.elements ++ [(name, value)]⟩ }

/-- The type, as a descriptor. -/
def typeDescriptor (pool : ConstantPool) (u : AnnotationUse) : Except Fault String :=
  pool.text u.body.type

end AnnotationUse

namespace ElementValue

def int (value : Int32) : PoolM ElementValue := do
  return number .int (← PoolM.add (.integer value))

def boolean (value : Bool) : PoolM ElementValue := do
  return number .boolean (← PoolM.add (.integer (if value then 1 else 0)))

def long (value : Int64) : PoolM ElementValue := do
  return number .long (← PoolM.add (.long value))

def ofText (text : String) : PoolM ElementValue := do return string (← PoolM.addText text)

def ofType (descriptor : String) : PoolM ElementValue := do
  return typeLiteral (← PoolM.addText descriptor)

def ofEnumeration (type name : String) : PoolM ElementValue := do
  return enumeration (← PoolM.addText type) (← PoolM.addText name)

end ElementValue

/-- The annotations of one visibility, in their order. -/
def annotationsOf (visible : Bool) (uses : List AnnotationUse) : List Annotation :=
  (uses.filter fun u => u.visible = visible).map (·.body)

/-- Annotations as an attribute would hold them. -/
def annotationBytes (annotations : List Annotation) : Except Fault (List UInt8) := do
  if annotations.length > 65535 then throw (.format (.tooManyAnnotations annotations.length))
  Fault.ofFormat (Writer.counted Annotation.write annotations)

/-- The number of annotations in all places together. -/
def countAnnotations (places : List (List Annotation)) : Nat :=
  (places.map List.length).foldl (· + ·) 0

namespace PoolM

/-- The attributes for some annotations, visible ones first. Both are written before either name is
added to the pool. -/
def addAnnotations (uses : List AnnotationUse) : PoolM (List Attribute) := do
  let visible ← ask fun _ => annotationBytes (annotationsOf true uses)
  let invisible ← ask fun _ => annotationBytes (annotationsOf false uses)
  let mut attributes := []
  -- What is behind the two bytes of the count is the annotations.
  if visible.length > 2 then
    attributes := [⟨← addText (Payload.name VisibleAnnotations), visible⟩]
  if invisible.length > 2 then
    attributes := attributes ++ [⟨← addText (Payload.name InvisibleAnnotations), invisible⟩]
  return attributes

/-- The attributes for the annotations of each parameter, visible ones first. An attribute has a
place for every parameter, and is there only if there are annotations in these places. -/
def addParameterAnnotations (parameters : List (List AnnotationUse)) :
    PoolM (List Attribute) := do
  let visible := parameters.map (annotationsOf true)
  let invisible := parameters.map (annotationsOf false)
  let mut attributes := []
  if countAnnotations visible > 0 then
    attributes := [← addAttribute (VisibleParameterAnnotations.mk visible)]
  if countAnnotations invisible > 0 then
    attributes := attributes ++ [← addAttribute (InvisibleParameterAnnotations.mk invisible)]
  return attributes

end PoolM

namespace ConstantPool

/-- The annotations that an attribute holds. -/
def annotationsIn (pool : ConstantPool) (a : Attribute) : Except Fault (List AnnotationUse) := do
  if let some p ← pool.payload? VisibleAnnotations a then
    return p.annotations.map fun a => ⟨a, true⟩
  if let some p ← pool.payload? InvisibleAnnotations a then
    return p.annotations.map fun a => ⟨a, false⟩
  return []

/-- The annotations that some attributes hold, in their order. All of them have to fit the pool. -/
def annotations (pool : ConstantPool) (attributes : List Attribute) :
    Except Fault (List AnnotationUse) := do
  let uses := (← attributes.mapM pool.annotationsIn).flatten
  uses.forM fun u => u.check pool
  return uses

/-- The annotations of parameters that an attribute holds. -/
def parameterAnnotationsIn (pool : ConstantPool) (a : Attribute) :
    Except Fault (List (List AnnotationUse)) := do
  if let some p ← pool.payload? VisibleParameterAnnotations a then
    return p.parameters.map fun annotations => annotations.map fun a => ⟨a, true⟩
  if let some p ← pool.payload? InvisibleParameterAnnotations a then
    return p.parameters.map fun annotations => annotations.map fun a => ⟨a, false⟩
  return []

/-- Put the annotations of each parameter behind those that it has already. -/
def mergeParameters : List (List AnnotationUse) → List (List AnnotationUse) →
    List (List AnnotationUse)
  | [], more => more
  | parameters, [] => parameters
  | uses :: parameters, more :: rest => (uses ++ more) :: mergeParameters parameters rest

/-- The annotations of each parameter that some attributes hold. All of them have to fit the
pool. -/
def parameterAnnotations (pool : ConstantPool) (attributes : List Attribute) :
    Except Fault (List (List AnnotationUse)) := do
  let parameters := (← attributes.mapM pool.parameterAnnotationsIn).foldl mergeParameters []
  parameters.flatten.forM fun u => u.check pool
  return parameters

end ConstantPool

end Classfile
