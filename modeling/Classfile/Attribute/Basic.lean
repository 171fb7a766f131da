import Classfile.Constant.Binary

/-!
Attributes: named blocks of bytes that hang on classes, fields, methods and code. What a block holds
is its payload, and the name says which kind of payload it is.
-/
namespace Classfile

structure Attribute where
  name : ConstantIndex
  info : List UInt8
  deriving DecidableEq, Repr

namespace Attribute

def write (a : Attribute) : Except FormatError (List UInt8) :=
  .ok (a.name.write ++ Writer.blob a.info)

def read : Reader Attribute := do
  let name ← ConstantIndex.read
  let info ← Reader.bytes (← Reader.u32).toNat
  return ⟨name, info⟩

end Attribute

/-- Values that an attribute can hold. -/
class Payload (α : Type) where
  name : String
  write : α → Except FormatError (List UInt8)
  read : Reader α

end Classfile
