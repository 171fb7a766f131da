import Classfile.Attribute.Basic
import Classfile.Flags

/-! Fields and methods as a class file stores them. -/
namespace Classfile

/-- A field or a method. -/
structure Member (owner : FlagOwner) where
  flags : AccessFlags owner
  name : ConstantIndex
  descriptor : ConstantIndex
  attributes : List Attribute
  deriving DecidableEq

abbrev Field := Member .field
abbrev Method := Member .method

namespace AccessFlags

variable {owner : FlagOwner}

def write (flags : AccessFlags owner) : List UInt8 := Writer.u16 flags.bits

def read (owner : FlagOwner) : Reader (AccessFlags owner) := do
  return ofBits owner (← Reader.u16)

end AccessFlags

namespace Member

variable {owner : FlagOwner}

def write (m : Member owner) : Except FormatError (List UInt8) := do
  let attributes ← Writer.counted Attribute.write m.attributes
  return m.flags.write ++ m.name.write ++ m.descriptor.write ++ attributes

def read (owner : FlagOwner) : Reader (Member owner) := do
  let flags ← AccessFlags.read owner
  let name ← ConstantIndex.read
  let descriptor ← ConstantIndex.read
  let attributes ← Reader.counted Attribute.read
  return ⟨flags, name, descriptor, attributes⟩

end Member

end Classfile
