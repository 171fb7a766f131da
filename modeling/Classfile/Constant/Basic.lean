import Classfile.WidthTable

/-!
Constants of a class file. A constant refers to others by their index in the constant pool.
Floating point numbers are kept as bits, so that two of them are the same constant only if they are
the same bit for bit. The signature of a member is the index of its name and type.
-/
namespace Classfile

/-- An index into the constant pool. Zero is never the index of a constant. -/
structure ConstantIndex where
  value : UInt16
  deriving DecidableEq, Hashable, Repr

/-- What a method handle does with its member. -/
inductive HandleKind
  | getField
  | getStatic
  | putField
  | putStatic
  | invokeVirtual
  | invokeStatic
  | invokeSpecial
  | newInvokeSpecial
  | invokeInterface
  deriving DecidableEq, Hashable, Repr

namespace HandleKind

/-- In the order of their codes, which begin with one. -/
def all : List HandleKind := [
  getField, getStatic, putField, putStatic, invokeVirtual, invokeStatic, invokeSpecial,
  newInvokeSpecial, invokeInterface]

def code : HandleKind → UInt8
  | getField => 1
  | getStatic => 2
  | putField => 3
  | putStatic => 4
  | invokeVirtual => 5
  | invokeStatic => 6
  | invokeSpecial => 7
  | newInvokeSpecial => 8
  | invokeInterface => 9

def name : HandleKind → String
  | getField => "GetField"
  | getStatic => "GetStatic"
  | putField => "PutField"
  | putStatic => "PutStatic"
  | invokeVirtual => "InvokeVirtual"
  | invokeStatic => "InvokeStatic"
  | invokeSpecial => "InvokeSpecial"
  | newInvokeSpecial => "NewInvokeSpecial"
  | invokeInterface => "InvokeInterface"

def ofCode? (code : UInt8) : Option HandleKind := all.find? fun k => k.code = code

/-- Does the handle get at a field, and not at a method? -/
def isField : HandleKind → Bool
  | getField | getStatic | putField | putStatic => true
  | _ => false

end HandleKind

inductive Constant
  | utf8 (text : String)
  | integer (value : Int32)
  | float (bits : UInt32)
  | long (value : Int64)
  | double (bits : UInt64)
  | typeName (name : ConstantIndex)
  | string (text : ConstantIndex)
  | fieldRef (owner signature : ConstantIndex)
  | methodRef (ofInterface : Bool) (owner signature : ConstantIndex)
  | nameAndType (name descriptor : ConstantIndex)
  | methodHandle (kind : HandleKind) (member : ConstantIndex)
  | methodType (descriptor : ConstantIndex)
  | dynamic (bootstrap : UInt16) (signature : ConstantIndex)
  | invokeDynamic (bootstrap : UInt16) (signature : ConstantIndex)
  | moduleName (name : ConstantIndex)
  | packageName (name : ConstantIndex)
  deriving DecidableEq, Hashable, Repr

/-- What a constant must be in some place of the class file. -/
inductive Role
  | utf8
  | integer
  | float
  | long
  | double
  | typeName
  | string
  | fieldRef
  | methodRef
  | member
  | handleMember
  | nameAndType
  | invokeDynamic
  | loadable
  | wideLoadable
  deriving DecidableEq, Repr

namespace Role

def name : Role → String
  | utf8 => "Utf8"
  | integer => "Integer"
  | float => "Float"
  | long => "Long"
  | double => "Double"
  | typeName => "Class"
  | string => "String"
  | fieldRef => "Fieldref"
  | methodRef => "Methodref"
  | member => "Fieldref or Methodref"
  | handleMember => "member reference"
  | nameAndType => "NameAndType"
  | invokeDynamic => "InvokeDynamic"
  | loadable => "loadable constant"
  | wideLoadable => "Long or Double"

/-- Can the constant play the role? A dynamic constant can be loaded at either width. -/
def accepts : Role → Constant → Bool
  | utf8, .utf8 _ => true
  | integer, .integer _ => true
  | float, .float _ => true
  | long, .long _ => true
  | double, .double _ => true
  | typeName, .typeName _ => true
  | string, .string _ => true
  | fieldRef, .fieldRef .. => true
  | methodRef, .methodRef .. => true
  | member, .fieldRef .. | member, .methodRef .. => true
  | handleMember, .fieldRef .. | handleMember, .methodRef .. => true
  | nameAndType, .nameAndType .. => true
  | invokeDynamic, .invokeDynamic .. => true
  | loadable, .integer _ | loadable, .float _ | loadable, .string _ | loadable, .typeName _
  | loadable, .methodHandle .. | loadable, .methodType _ | loadable, .dynamic .. => true
  | wideLoadable, .long _ | wideLoadable, .double _ | wideLoadable, .dynamic .. => true
  | _, _ => false

end Role

namespace Constant

/-- The name of the kind of constant. -/
def kind : Constant → String
  | utf8 _ => "Utf8"
  | integer _ => "Integer"
  | float _ => "Float"
  | long _ => "Long"
  | double _ => "Double"
  | typeName _ => "Class"
  | string _ => "String"
  | fieldRef .. => "Fieldref"
  | methodRef false _ _ => "Methodref"
  | methodRef true _ _ => "InterfaceMethodref"
  | nameAndType .. => "NameAndType"
  | methodHandle .. => "MethodHandle"
  | methodType _ => "MethodType"
  | dynamic .. => "Dynamic"
  | invokeDynamic .. => "InvokeDynamic"
  | moduleName _ => "Module"
  | packageName _ => "Package"

/-- The constants that this one refers to, with the role that each has to play. -/
def references : Constant → List (ConstantIndex × Role)
  | typeName name | string name | moduleName name | packageName name | methodType name =>
    [(name, .utf8)]
  | fieldRef owner signature | methodRef _ owner signature =>
    [(owner, .typeName), (signature, .nameAndType)]
  | nameAndType name descriptor => [(name, .utf8), (descriptor, .utf8)]
  | methodHandle _ member => [(member, .handleMember)]
  | dynamic _ signature | invokeDynamic _ signature => [(signature, .nameAndType)]
  | utf8 _ | integer _ | float _ | long _ | double _ => []

/-- Numbers of eight bytes take two slots of the pool. -/
def isWide : Constant → Bool
  | long _ | double _ => true
  | _ => false

def width (c : Constant) : Nat := if c.isWide then 2 else 1

instance : Width Constant := ⟨width⟩

end Constant

end Classfile
