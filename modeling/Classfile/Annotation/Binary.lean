import Classfile.Annotation.Basic

/-!
Annotations as bytes, and the four attributes that hold them: visible and invisible ones, of a
class or member and of the parameters of a method.
-/
namespace Classfile

namespace ElementValue

mutual

def write : ElementValue → Except FormatError (List UInt8)
  | number type value => .ok (UInt8.ofNat type.letter.toNat :: value.write)
  | string text => .ok (UInt8.ofNat 's'.toNat :: text.write)
  | enumeration type name => .ok (UInt8.ofNat 'e'.toNat :: (type.write ++ name.write))
  | typeLiteral descriptor => .ok (UInt8.ofNat 'c'.toNat :: descriptor.write)
  | nested type elements =>
    if elements.length > 65535 then .error .tooManyElements
    else do
      let body ← writeElementsOnto [] elements
      return UInt8.ofNat '@'.toNat :: (type.write ++ BigEndian.pack 2 elements.length ++ body)
  | array values =>
    if values.length > 65535 then .error .tooManyElements
    else do
      let body ← writeValuesOnto [] values
      return UInt8.ofNat '['.toNat :: (BigEndian.pack 2 values.length ++ body)

/-- The values in turn, behind the pieces that `done` holds in reverse. -/
def writeValuesOnto (done : List (List UInt8)) :
    List ElementValue → Except FormatError (List UInt8)
  | [] => .ok done.reverse.flatten
  | value :: values =>
    match write value with
    | .ok bytes => writeValuesOnto (bytes :: done) values
    | .error e => .error e

/-- The elements in turn, each value behind its name. -/
def writeElementsOnto (done : List (List UInt8)) :
    List (ConstantIndex × ElementValue) → Except FormatError (List UInt8)
  | [] => .ok done.reverse.flatten
  | (name, value) :: elements =>
    match write value with
    | .ok bytes => writeElementsOnto ((name.write ++ bytes) :: done) elements
    | .error e => .error e

end

/-- A value of at most `depth` levels. -/
def read : Nat → Reader ElementValue
  | 0 => Reader.fail .endOfInput
  | depth + 1 => do
    let tag ← Reader.u8
    let letter := Char.ofNat tag.toNat
    match BaseType.ofLetter? letter with
    | some type => return number type (← ConstantIndex.read)
    | none =>
      if letter = 's' then return string (← ConstantIndex.read)
      else if letter = 'e' then return enumeration (← ConstantIndex.read) (← ConstantIndex.read)
      else if letter = 'c' then return typeLiteral (← ConstantIndex.read)
      else if letter = '@' then
        let type ← ConstantIndex.read
        let elements ← Reader.counted do return (← ConstantIndex.read, ← read depth)
        return nested type elements
      else if letter = '[' then return array (← Reader.counted (read depth))
      else Reader.fail (.unknownElementTag tag)

end ElementValue

namespace Annotation

def write (a : Annotation) : Except FormatError (List UInt8) := do
  if a.elements.length > 65535 then throw .tooManyElements
  let body ← ElementValue.writeElementsOnto [] a.elements
  return a.type.write ++ BigEndian.pack 2 a.elements.length ++ body

/-- Every level of a value takes a byte at least, so no value has more levels than there are
bytes. -/
def read : Reader Annotation := fun bytes =>
  let body : Reader Annotation := do
    let type ← ConstantIndex.read
    let elements ← Reader.counted do
      return (← ConstantIndex.read, ← ElementValue.read bytes.length)
    return ⟨type, elements⟩
  body bytes

end Annotation

/-- Annotations of each parameter, behind the number of parameters in one byte. -/
def writeParameterAnnotations (parameters : List (List Annotation)) :
    Except FormatError (List UInt8) := do
  if parameters.length > 255 then throw (.tooManyParameters parameters.length)
  let body ← Writer.each (Writer.counted Annotation.write) parameters
  return BigEndian.pack 1 parameters.length ++ body

def readParameterAnnotations : Reader (List (List Annotation)) := do
  Reader.times (← Reader.u8).toNat (Reader.counted Annotation.read)

structure VisibleAnnotations where
  annotations : List Annotation

instance : Payload VisibleAnnotations where
  name := "RuntimeVisibleAnnotations"
  write p := Writer.counted Annotation.write p.annotations
  read := do return ⟨← Reader.counted Annotation.read⟩

structure InvisibleAnnotations where
  annotations : List Annotation

instance : Payload InvisibleAnnotations where
  name := "RuntimeInvisibleAnnotations"
  write p := Writer.counted Annotation.write p.annotations
  read := do return ⟨← Reader.counted Annotation.read⟩

structure VisibleParameterAnnotations where
  parameters : List (List Annotation)

instance : Payload VisibleParameterAnnotations where
  name := "RuntimeVisibleParameterAnnotations"
  write p := writeParameterAnnotations p.parameters
  read := do return ⟨← readParameterAnnotations⟩

structure InvisibleParameterAnnotations where
  parameters : List (List Annotation)

instance : Payload InvisibleParameterAnnotations where
  name := "RuntimeInvisibleParameterAnnotations"
  write p := writeParameterAnnotations p.parameters
  read := do return ⟨← readParameterAnnotations⟩

/-- Is this the name of an attribute that holds annotations? -/
def isAnnotationAttribute (name : String) : Bool :=
  [Payload.name VisibleAnnotations, Payload.name InvisibleAnnotations,
    Payload.name VisibleParameterAnnotations, Payload.name InvisibleParameterAnnotations].contains
    name

end Classfile
