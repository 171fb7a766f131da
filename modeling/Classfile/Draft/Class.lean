import Classfile.Draft.Field
import Classfile.Draft.Method
import Classfile.Image.Basic

/-!
Classes that can be edited. The members of a class are kept as they are stored, and become drafts
only to be edited; all of them share the constant pool of the class.
-/
namespace Classfile

structure ClassDraft where
  version : Version
  flags : AccessFlags .type
  pool : ConstantPool
  thisClass : ConstantIndex
  superClass : Option ConstantIndex
  interfaces : List ConstantIndex
  fields : List Field
  methods : List Method
  annotations : List AnnotationUse
  /-- The attributes that are not modelled above. -/
  attributes : List Attribute

/-- Computations that edit a class. What was added to its pool before a fault stays. -/
abbrev ClassM := EStateM Fault ClassDraft

namespace ClassDraft

/-! ### Asking -/

def name (d : ClassDraft) : Except Fault String := d.pool.typeName d.thisClass

/-- The name of the superclass, which only the root of all classes lacks. -/
def superName (d : ClassDraft) : Except Fault (Option String) := d.superClass.mapM d.pool.typeName

def interfaceNames (d : ClassDraft) : Except Fault (List String) :=
  d.interfaces.mapM d.pool.typeName

/-- Name and descriptor of a stored member. -/
def signatureOf {owner : FlagOwner} (d : ClassDraft) (m : Member owner) :
    Except Fault (String × String) := do
  return (← d.pool.text m.name, ← d.pool.text m.descriptor)

/-- Does the constant with an index have the text? -/
def reads (d : ClassDraft) (i : ConstantIndex) (text : String) : Bool :=
  match d.pool.text i with
  | .ok found => found = text
  | .error _ => false

/-- The position of the first member with a name and a descriptor. -/
def position? {owner : FlagOwner} (d : ClassDraft) (members : List (Member owner))
    (name descriptor : String) : Option Nat :=
  members.findIdx? fun m => d.reads m.name name && d.reads m.descriptor descriptor

def containsMethod (d : ClassDraft) (name descriptor : String) : Bool :=
  (d.position? d.methods name descriptor).isSome

def containsField (d : ClassDraft) (name descriptor : String) : Bool :=
  (d.position? d.fields name descriptor).isSome

/-- The name of the class in a message. -/
def nameOrUnnamed (d : ClassDraft) : String :=
  match d.name with
  | .ok name => name
  | .error _ => "<unnamed class>"

/-- The method with a name and a descriptor, and its position. -/
def findMethod (d : ClassDraft) (name descriptor : String) : Except Fault (Nat × Method) :=
  match d.position? d.methods name descriptor with
  | none => .error (.missing (.method d.nameOrUnnamed name descriptor))
  | some position =>
    match d.methods[position]? with
    | none => .error (.missing (.method d.nameOrUnnamed name descriptor))
    | some m => .ok (position, m)

/-- The field with a name and a descriptor, and its position. -/
def findField (d : ClassDraft) (name descriptor : String) : Except Fault (Nat × Field) :=
  match d.position? d.fields name descriptor with
  | none => .error (.missing (.field d.nameOrUnnamed name descriptor))
  | some position =>
    match d.fields[position]? with
    | none => .error (.missing (.field d.nameOrUnnamed name descriptor))
    | some f => .ok (position, f)

/-- The draft of a method of the class. -/
def method (d : ClassDraft) (name descriptor : String) : Except Fault MethodDraft := do
  let (_, m) ← d.findMethod name descriptor
  MethodDraft.ofMethod d.pool (← d.name) m

/-- The draft of a field of the class. -/
def field (d : ClassDraft) (name descriptor : String) : Except Fault FieldDraft := do
  let (_, f) ← d.findField name descriptor
  FieldDraft.ofField d.pool f

end ClassDraft

namespace ClassM

variable {α : Type}

/-- Ask the class without changing it. -/
def ask (question : ClassDraft → Except Fault α) : ClassM α := fun d =>
  match question d with
  | .ok a => .ok a d
  | .error e => .error e d

/-- Add to the pool of the class. -/
def onPool (x : PoolM α) : ClassM α := fun d =>
  let ⟨version, flags, pool, thisClass, superClass, interfaces, fields, methods, annotations,
    attributes⟩ := d
  let put (pool : ConstantPool) : ClassDraft := ⟨version, flags, pool, thisClass, superClass,
    interfaces, fields, methods, annotations, attributes⟩
  match x pool with
  | .ok a pool => .ok a (put pool)
  | .error e pool => .error e (put pool)

/-- Add an interface, unless its index is there already. -/
def addInterface (name : String) : ClassM Unit := do
  let i ← onPool (PoolM.addTypeName name)
  modify fun d =>
    if d.interfaces.contains i then d else { d with interfaces := d.interfaces ++ [i] }

/-- Take away every interface of a name. Says whether there was one. -/
def removeInterface (name : String) : ClassM Bool := do
  let d ← get
  let kept := d.interfaces.filter fun i =>
    match d.pool.typeName i with
    | .ok found => found ≠ name
    | .error _ => true
  set { d with interfaces := kept }
  return kept.length ≠ d.interfaces.length

/-- Add a method behind all others. -/
def addMethod (m : MethodDraft) : ClassM Unit := do
  let m ← onPool m.build
  modify fun d => { d with methods := d.methods ++ [m] }

/-- Add a field behind all others. -/
def addField (f : FieldDraft) : ClassM Unit := do
  let f ← onPool f.build
  modify fun d => { d with fields := d.fields ++ [f] }

/-- Put another method in the place of one, and give back the old one. -/
def replaceMethod (name descriptor : String) (m : MethodDraft) : ClassM Method := do
  let (position, old) ← ask fun d => d.findMethod name descriptor
  let m ← onPool m.build
  modify fun d => { d with methods := d.methods.set position m }
  return old

/-- Put another field in the place of one, and give back the old one. -/
def replaceField (name descriptor : String) (f : FieldDraft) : ClassM Field := do
  let (position, old) ← ask fun d => d.findField name descriptor
  let f ← onPool f.build
  modify fun d => { d with fields := d.fields.set position f }
  return old

def removeMethod (name descriptor : String) : ClassM Method := do
  let (position, old) ← ask fun d => d.findMethod name descriptor
  modify fun d => { d with methods := d.methods.eraseIdx position }
  return old

def removeField (name descriptor : String) : ClassM Field := do
  let (position, old) ← ask fun d => d.findField name descriptor
  modify fun d => { d with fields := d.fields.eraseIdx position }
  return old

def addAnnotation (u : AnnotationUse) : ClassM Unit :=
  modify fun d => { d with annotations := d.annotations ++ [u] }

def addAttribute [Payload α] (payload : α) : ClassM Unit := do
  let a ← onPool (PoolM.addAttribute payload)
  modify fun d => { d with attributes := d.attributes ++ [a] }

/-- Name the file that the class was compiled from, in the place of any file named before. -/
def setSourceFile (file : String) : ClassM Unit := do
  let a ← onPool do PoolM.addAttribute (SourceFile.mk (← PoolM.addText file))
  modify fun d => { d with
    attributes := d.attributes.filter (fun b => !d.reads b.name (Payload.name SourceFile)) ++ [a] }

end ClassM

namespace ClassDraft

/-- A new class, with a pool of its own. -/
def make (version : Version) (flags : AccessFlags .type) (name : String)
    (superName : Option String) (interfaces : List String) : Except Fault ClassDraft :=
  let head : PoolM (ConstantIndex × Option ConstantIndex) := do
    return (← PoolM.addTypeName name, ← superName.mapM PoolM.addTypeName)
  match head .empty with
  | .error e _ => .error e
  | .ok (thisClass, superClass) pool =>
    let d : ClassDraft := ⟨version, flags, pool, thisClass, superClass, [], [], [], [], []⟩
    match (interfaces.forM ClassM.addInterface : ClassM Unit) d with
    | .ok _ d => .ok d
    | .error e _ => .error e

/-- The draft of an image. All of the image is checked, the code of its methods included. -/
def ofImage (c : ClassImage) : Except Fault ClassDraft := do
  let pool ← ConstantPool.ofTable c.constants
  let thisClass ← pool.checked .typeName c.thisClass
  let name ← pool.typeName thisClass
  let superClass ← c.superClass.mapM (pool.checked .typeName)
  let interfaces ← c.interfaces.mapM (pool.checked .typeName)
  c.fields.forM fun f => discard (FieldDraft.ofField pool f)
  c.methods.forM fun m => discard (MethodDraft.ofMethod pool name m)
  let names ← c.attributes.mapM pool.attributeName
  let attributes := ((c.attributes.zip names).filter fun entry =>
    !isAnnotationAttribute entry.2).map (·.1)
  let annotations ← pool.annotations c.attributes
  return ⟨c.version, c.flags, pool, thisClass, superClass, interfaces, c.fields, c.methods,
    annotations, attributes⟩

/-- The image of the class. The attributes of its annotations come last. -/
def build (d : ClassDraft) : Except Fault ClassImage :=
  match PoolM.addAnnotations d.annotations d.pool with
  | .error e _ => .error e
  | .ok attributes pool =>
    .ok ⟨d.version, pool.table, d.flags, d.thisClass, d.superClass, d.interfaces, d.fields,
      d.methods, d.attributes ++ attributes⟩

end ClassDraft

end Classfile
