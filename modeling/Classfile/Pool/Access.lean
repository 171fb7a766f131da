import Classfile.Attribute.Basic
import Classfile.Pool.Basic

/-! Asking the pool for what its constants stand for. -/
namespace Classfile

namespace ConstantPool

def lookupText (pool : ConstantPool) (text : String) : Option ConstantIndex :=
  pool.lookup (.utf8 text)

def lookupString (pool : ConstantPool) (text : String) : Option ConstantIndex := do
  pool.lookup (.string (← pool.lookupText text))

def lookupTypeName (pool : ConstantPool) (name : String) : Option ConstantIndex := do
  pool.lookup (.typeName (← pool.lookupText name))

/-- A method of a class goes before one of an interface. -/
def lookupMethodRef (pool : ConstantPool) (owner name descriptor : String) :
    Option ConstantIndex := do
  let owner ← pool.lookupTypeName owner
  let name ← pool.lookupText name
  let descriptor ← pool.lookupText descriptor
  let signature ← pool.lookup (.nameAndType name descriptor)
  pool.lookup (.methodRef false owner signature) <|> pool.lookup (.methodRef true owner signature)

def text (pool : ConstantPool) (i : ConstantIndex) : Except Fault String := do
  match ← pool.get i with
  | .utf8 text => return text
  | _ => throw (.wrongConstant i .utf8)

def typeName (pool : ConstantPool) (i : ConstantIndex) : Except Fault String := do
  match ← pool.get i with
  | .typeName name => pool.text name
  | _ => throw (.wrongConstant i .typeName)

def string (pool : ConstantPool) (i : ConstantIndex) : Except Fault String := do
  match ← pool.get i with
  | .string text => pool.text text
  | _ => throw (.wrongConstant i .string)

/-- Name and descriptor. -/
def signature (pool : ConstantPool) (i : ConstantIndex) : Except Fault (String × String) := do
  match ← pool.get i with
  | .nameAndType name descriptor => return (← pool.text name, ← pool.text descriptor)
  | _ => throw (.wrongConstant i .nameAndType)

/-- Owner, name and descriptor of a field or method. -/
def member (pool : ConstantPool) (i : ConstantIndex) :
    Except Fault (String × String × String) := do
  match ← pool.get i with
  | .fieldRef owner signature | .methodRef _ owner signature =>
    let (name, descriptor) ← pool.signature signature
    return (← pool.typeName owner, name, descriptor)
  | _ => throw (.wrongConstant i .member)

/-- The index itself, if the constant can play the role. -/
def checked (pool : ConstantPool) (role : Role) (i : ConstantIndex) :
    Except Fault ConstantIndex := do
  discard (pool.require role i)
  return i

def attributeName (pool : ConstantPool) (a : Attribute) : Except Fault String := pool.text a.name

/-- The payload of an attribute that has the right name. The whole block has to be read. -/
def payload? (pool : ConstantPool) (α : Type) [Payload α] (a : Attribute) :
    Except Fault (Option α) := do
  let name := Payload.name α
  if (← pool.attributeName a) ≠ name then return none
  match (Payload.read : Reader α) a.info with
  | .ok (payload, []) => return some payload
  | .ok (_, rest) => throw (.malformedClass (.trailingInAttribute name rest.length))
  | .error cause => throw (.malformedClass (.badAttribute name cause))

/-- The payload of the first attribute that has the right name. -/
def findPayload? (pool : ConstantPool) (α : Type) [Payload α] :
    List Attribute → Except Fault (Option α)
  | [] => return none
  | a :: rest => do
    match ← pool.payload? α a with
    | some payload => return some payload
    | none => pool.findPayload? α rest

end ConstantPool

namespace PoolM

/-- An attribute with a payload. Its name is added to the pool before the payload is written. -/
def addAttribute {α : Type} [Payload α] (payload : α) : PoolM Attribute := do
  let name ← addText (Payload.name α)
  match Payload.write payload with
  | .ok info => return ⟨name, info⟩
  | .error cause => throw (.format cause)

end PoolM

end Classfile
