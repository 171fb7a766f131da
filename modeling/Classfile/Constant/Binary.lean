import Classfile.Binary.Reader
import Classfile.Binary.Writer
import Classfile.Constant.Basic
import Classfile.Text.ModifiedUtf8

/-! Constants as bytes: a tag, and then what the tag calls for. -/
namespace Classfile

namespace ConstantIndex

def write (i : ConstantIndex) : List UInt8 := Writer.u16 i.value

def read : Reader ConstantIndex := do return ⟨← Reader.u16⟩

/-- Zero stands for nothing. -/
def writeOptional : Option ConstantIndex → List UInt8
  | some i => i.write
  | none => Writer.u16 0

def readOptional : Reader (Option ConstantIndex) := do
  let i ← read
  return if i.value = 0 then none else some i

end ConstantIndex

namespace Constant

def tag : Constant → UInt8
  | utf8 _ => 1
  | integer _ => 3
  | float _ => 4
  | long _ => 5
  | double _ => 6
  | typeName _ => 7
  | string _ => 8
  | fieldRef .. => 9
  | methodRef false _ _ => 10
  | methodRef true _ _ => 11
  | nameAndType .. => 12
  | methodHandle .. => 15
  | methodType _ => 16
  | dynamic .. => 17
  | invokeDynamic .. => 18
  | moduleName _ => 19
  | packageName _ => 20

/-- A text behind its length in two bytes. -/
def writeText (text : String) : Except FormatError (List UInt8) :=
  let bytes := ModifiedUtf8.encode text
  if bytes.length > 65535 then .error .textTooLong
  else .ok (BigEndian.pack 2 bytes.length ++ bytes)

def writeBody : Constant → Except FormatError (List UInt8)
  | utf8 text => writeText text
  | integer value => .ok (Writer.i32 value)
  | float bits => .ok (Writer.u32 bits)
  | long value => .ok (Writer.i64 value)
  | double bits => .ok (Writer.u64 bits)
  | typeName i | string i | methodType i | moduleName i | packageName i => .ok i.write
  | fieldRef i j | methodRef _ i j | nameAndType i j => .ok (i.write ++ j.write)
  | methodHandle kind member => .ok (Writer.u8 kind.code ++ member.write)
  | dynamic bootstrap i | invokeDynamic bootstrap i => .ok (Writer.u16 bootstrap ++ i.write)

def write (c : Constant) : Except FormatError (List UInt8) := do
  return c.tag :: (← c.writeBody)

def readText : Reader String := do
  let bytes ← Reader.bytes (← Reader.u16).toNat
  match ModifiedUtf8.decode bytes with
  | .ok text => return text
  | .error e => Reader.fail e

def readHandleKind : Reader HandleKind := do
  let code ← Reader.u8
  match HandleKind.ofCode? code with
  | some kind => return kind
  | none => Reader.fail (.unknownHandleKind code)

def readBody (tag : UInt8) : Reader Constant := do
  match tag with
  | 1 => return utf8 (← readText)
  | 3 => return integer (← Reader.i32)
  | 4 => return float (← Reader.u32)
  | 5 => return long (← Reader.i64)
  | 6 => return double (← Reader.u64)
  | 7 => return typeName (← ConstantIndex.read)
  | 8 => return string (← ConstantIndex.read)
  | 9 => return fieldRef (← ConstantIndex.read) (← ConstantIndex.read)
  | 10 => return methodRef false (← ConstantIndex.read) (← ConstantIndex.read)
  | 11 => return methodRef true (← ConstantIndex.read) (← ConstantIndex.read)
  | 12 => return nameAndType (← ConstantIndex.read) (← ConstantIndex.read)
  | 15 => return methodHandle (← readHandleKind) (← ConstantIndex.read)
  | 16 => return methodType (← ConstantIndex.read)
  | 17 => return dynamic (← Reader.u16) (← ConstantIndex.read)
  | 18 => return invokeDynamic (← Reader.u16) (← ConstantIndex.read)
  | 19 => return moduleName (← ConstantIndex.read)
  | 20 => return packageName (← ConstantIndex.read)
  | _ => Reader.fail (.unknownConstantTag tag)

def read : Reader Constant := do
  readBody (← Reader.u8)

end Constant

end Classfile
