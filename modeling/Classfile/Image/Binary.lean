import Classfile.Image.Basic

/-! Images of classes as bytes. -/
namespace Classfile.ClassImage

/-- The bytes that every class file begins with. -/
def magic : List UInt8 := [0xca, 0xfe, 0xba, 0xbe]

def write (c : ClassImage) : Except FormatError (List UInt8) := do
  if c.constants.extent > 65535 then throw .poolTooLarge
  let constants ← Writer.each (fun (_, constant) => Constant.write constant) c.constants.toList
  let interfaces ← Writer.counted (fun i => .ok (ConstantIndex.write i)) c.interfaces
  let fields ← Writer.counted Member.write c.fields
  let methods ← Writer.counted Member.write c.methods
  let attributes ← Writer.counted Attribute.write c.attributes
  return magic ++ c.version.write ++ BigEndian.pack 2 c.constants.extent ++ constants ++
    c.flags.write ++ c.thisClass.write ++ ConstantIndex.writeOptional c.superClass ++
    interfaces ++ fields ++ methods ++ attributes

/-- Constants until a number of slots is full. A wide constant needs two of them. -/
def readConstantsOnto (table : WidthTable Constant) : Nat → Reader (WidthTable Constant)
  | 0, bytes => .ok (table, bytes)
  | slots + 1, bytes =>
    match Constant.read bytes with
    | .error e => .error e
    | .ok (c, rest) =>
      if c.isWide then
        match slots with
        | 0 => .error .constantOverrun
        | slots + 1 => readConstantsOnto (table.push c) slots rest
      else readConstantsOnto (table.push c) slots rest

/-- The constant pool, behind the index after its last slot. -/
def readConstants : Reader (WidthTable Constant) := do
  match (← Reader.u16).toNat with
  | 0 => Reader.fail .constantOverrun
  | slots + 1 => readConstantsOnto (WidthTable.startingAt 1) slots

def read : Reader ClassImage := do
  let start ← Reader.bytes 4
  if start ≠ magic then Reader.fail (.badMagic start)
  let version ← Version.read
  let constants ← readConstants
  let flags ← AccessFlags.read .type
  let thisClass ← ConstantIndex.read
  let superClass ← ConstantIndex.readOptional
  let interfaces ← Reader.counted ConstantIndex.read
  let fields ← Reader.counted (Member.read .field)
  let methods ← Reader.counted (Member.read .method)
  let attributes ← Reader.counted Attribute.read
  return ⟨version, constants, flags, thisClass, superClass, interfaces, fields, methods, attributes⟩

/-- The bytes of the class file. -/
def toBytes (c : ClassImage) : Except Fault (List UInt8) := Fault.ofFormat c.write

/-- Read a class file. Nothing may follow it. -/
def ofBytes (bytes : List UInt8) : Except Fault ClassImage :=
  match read bytes with
  | .ok (c, []) => .ok c
  | .ok (_, rest) => .error (.malformedClass (.trailing rest.length))
  | .error .endOfInput => .error (.malformedClass .truncated)
  | .error cause => .error (.malformedClass (.unreadable cause))

end Classfile.ClassImage
