import Classfile.Binary.BigEndian
import Classfile.Binary.FormatError

/-! Writing values as bytes. Writing fails where a length has no room in its field. -/
namespace Classfile.Writer

variable {α : Type}

def u8 (n : UInt8) : List UInt8 := [n]
def i8 (n : Int8) : List UInt8 := [n.toUInt8]
def u16 (n : UInt16) : List UInt8 := BigEndian.pack 2 n.toNat
def i16 (n : Int16) : List UInt8 := u16 n.toUInt16
def u32 (n : UInt32) : List UInt8 := BigEndian.pack 4 n.toNat
def i32 (n : Int32) : List UInt8 := u32 n.toUInt32
def u64 (n : UInt64) : List UInt8 := BigEndian.pack 8 n.toNat
def i64 (n : Int64) : List UInt8 := u64 n.toUInt64

/-- Every element in turn, without a length. -/
def each (write : α → Except FormatError (List UInt8)) (elements : List α) :
    Except FormatError (List UInt8) := do
  return (← elements.mapM write).flatten

/-- A sequence behind its length in two bytes. -/
def counted (write : α → Except FormatError (List UInt8)) (elements : List α) :
    Except FormatError (List UInt8) := do
  if elements.length > 65535 then throw .tooManyElements
  return BigEndian.pack 2 elements.length ++ (← each write elements)

/-- Bytes behind their count in four bytes. -/
def blob (bytes : List UInt8) : List UInt8 :=
  BigEndian.pack 4 bytes.length ++ bytes

end Classfile.Writer
