import Classfile.Attribute.Basic

/-! The payloads that a class, its members and its code can have, annotations apart. -/
namespace Classfile

/-- The value that a field begins with. -/
structure ConstantValue where
  value : ConstantIndex
  deriving DecidableEq, Repr

instance : Payload ConstantValue where
  name := "ConstantValue"
  write p := .ok p.value.write
  read := do return ⟨← ConstantIndex.read⟩

/-- The name of the file that a class was compiled from. -/
structure SourceFile where
  file : ConstantIndex
  deriving DecidableEq, Repr

instance : Payload SourceFile where
  name := "SourceFile"
  write p := .ok p.file.write
  read := do return ⟨← ConstantIndex.read⟩

/-- A generic signature. -/
structure Signature where
  signature : ConstantIndex
  deriving DecidableEq, Repr

instance : Payload Signature where
  name := "Signature"
  write p := .ok p.signature.write
  read := do return ⟨← ConstantIndex.read⟩

/-- The classes of the checked exceptions that a method declares. -/
structure Exceptions where
  types : List ConstantIndex
  deriving DecidableEq, Repr

instance : Payload Exceptions where
  name := "Exceptions"
  write p := Writer.counted (fun i => .ok i.write) p.types
  read := do return ⟨← Reader.counted ConstantIndex.read⟩

/-- The code from `start` to before `stop` is guarded by the handler. Without a class it catches
everything. -/
structure ExceptionHandler where
  start : UInt16
  stop : UInt16
  handler : UInt16
  catchType : Option ConstantIndex
  deriving DecidableEq, Repr

namespace ExceptionHandler

def write (h : ExceptionHandler) : Except FormatError (List UInt8) :=
  .ok (Writer.u16 h.start ++ Writer.u16 h.stop ++ Writer.u16 h.handler ++
    ConstantIndex.writeOptional h.catchType)

def read : Reader ExceptionHandler := do
  return ⟨← Reader.u16, ← Reader.u16, ← Reader.u16, ← ConstantIndex.readOptional⟩

end ExceptionHandler

/-- The code of a method, as bytes. -/
structure CodeBody where
  maxStack : UInt16
  maxLocals : UInt16
  code : List UInt8
  handlers : List ExceptionHandler
  attributes : List Attribute
  deriving DecidableEq, Repr

instance : Payload CodeBody where
  name := "Code"
  write p := do
    let handlers ← Writer.counted ExceptionHandler.write p.handlers
    let attributes ← Writer.counted Attribute.write p.attributes
    return Writer.u16 p.maxStack ++ Writer.u16 p.maxLocals ++ Writer.blob p.code ++ handlers ++
      attributes
  read := do
    let maxStack ← Reader.u16
    let maxLocals ← Reader.u16
    let code ← Reader.bytes (← Reader.u32).toNat
    let handlers ← Reader.counted ExceptionHandler.read
    let attributes ← Reader.counted Attribute.read
    return ⟨maxStack, maxLocals, code, handlers, attributes⟩

/-- The code from `start` on was compiled from the line. -/
structure LineNumber where
  start : UInt16
  line : UInt16
  deriving DecidableEq, Repr

structure LineNumberTable where
  lines : List LineNumber
  deriving DecidableEq, Repr

instance : Payload LineNumberTable where
  name := "LineNumberTable"
  write p := Writer.counted (fun l => .ok (Writer.u16 l.start ++ Writer.u16 l.line)) p.lines
  read := do return ⟨← Reader.counted do return ⟨← Reader.u16, ← Reader.u16⟩⟩

/-- The variable in a slot has a value in `length` bytes of code from `start` on. A descriptor or a
generic signature describes it. -/
structure VariableRange where
  start : UInt16
  length : UInt16
  name : ConstantIndex
  descriptor : ConstantIndex
  slot : UInt16
  deriving DecidableEq, Repr

namespace VariableRange

def write (r : VariableRange) : Except FormatError (List UInt8) :=
  .ok (Writer.u16 r.start ++ Writer.u16 r.length ++ r.name.write ++ r.descriptor.write ++
    Writer.u16 r.slot)

def read : Reader VariableRange := do
  return ⟨← Reader.u16, ← Reader.u16, ← ConstantIndex.read, ← ConstantIndex.read, ← Reader.u16⟩

end VariableRange

structure LocalVariableTable where
  ranges : List VariableRange
  deriving DecidableEq, Repr

instance : Payload LocalVariableTable where
  name := "LocalVariableTable"
  write p := Writer.counted VariableRange.write p.ranges
  read := do return ⟨← Reader.counted VariableRange.read⟩

structure LocalVariableTypeTable where
  ranges : List VariableRange
  deriving DecidableEq, Repr

instance : Payload LocalVariableTypeTable where
  name := "LocalVariableTypeTable"
  write p := Writer.counted VariableRange.write p.ranges
  read := do return ⟨← Reader.counted VariableRange.read⟩

end Classfile
