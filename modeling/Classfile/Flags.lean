/-!
Access flags of classes, methods and fields. Only the bits that the format defines for a kind of
owner can be set.
-/
namespace Classfile

/-- What carries the flags. -/
inductive FlagOwner
  | type
  | method
  | field
  deriving DecidableEq, Repr

/-- The flags that an owner can have, with their names, in the order of their bits. -/
def FlagOwner.defined : FlagOwner → List (UInt16 × String)
  | type => [
    (0x0001, "PUBLIC"), (0x0010, "FINAL"), (0x0020, "SUPER"), (0x0200, "INTERFACE"),
    (0x0400, "ABSTRACT"), (0x1000, "SYNTHETIC"), (0x2000, "ANNOTATION"), (0x4000, "ENUM"),
    (0x8000, "MODULE")]
  | method => [
    (0x0001, "PUBLIC"), (0x0002, "PRIVATE"), (0x0004, "PROTECTED"), (0x0008, "STATIC"),
    (0x0010, "FINAL"), (0x0020, "SYNCHRONIZED"), (0x0040, "BRIDGE"), (0x0080, "VARARGS"),
    (0x0100, "NATIVE"), (0x0400, "ABSTRACT"), (0x0800, "STRICT"), (0x1000, "SYNTHETIC")]
  | field => [
    (0x0001, "PUBLIC"), (0x0002, "PRIVATE"), (0x0004, "PROTECTED"), (0x0008, "STATIC"),
    (0x0010, "FINAL"), (0x0040, "VOLATILE"), (0x0080, "TRANSIENT"), (0x1000, "SYNTHETIC"),
    (0x4000, "ENUM")]

/-- All defined bits of an owner. -/
def FlagOwner.mask (owner : FlagOwner) : UInt16 :=
  owner.defined.foldl (fun bits flag => bits ||| flag.1) 0

/-- A set of flags, without any undefined bit. -/
structure AccessFlags (owner : FlagOwner) where
  bits : UInt16
  defined : bits &&& owner.mask = bits
  deriving DecidableEq

namespace AccessFlags

variable {owner : FlagOwner}

/-- Undefined bits are dropped. -/
def ofBits (owner : FlagOwner) (bits : UInt16) : AccessFlags owner :=
  ⟨bits &&& owner.mask, by rw [UInt16.and_assoc, UInt16.and_self]⟩

/-- Is every bit of `flag` set? -/
def contains (flags : AccessFlags owner) (flag : UInt16) : Bool := flags.bits &&& flag = flag

/-- The names of the flags that are set, or a word for none. -/
def describe (flags : AccessFlags owner) : String :=
  match (owner.defined.filter fun flag => flags.contains flag.1).map (·.2) with
  | [] => "(empty)"
  | names => " | ".intercalate names

end AccessFlags

end Classfile
