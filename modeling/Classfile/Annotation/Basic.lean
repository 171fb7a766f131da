import Classfile.Attribute.Basic
import Classfile.Descriptor.Basic

/-! Annotations and the values of their elements. All operands are indices into the pool. -/
namespace Classfile

/-- The value of an element. A number is given as the type of the element and a constant: an
`Integer` for every type of fewer than eight bytes, but for `float`. -/
inductive ElementValue
  | number (type : BaseType) (value : ConstantIndex)
  | string (text : ConstantIndex)
  | enumeration (type name : ConstantIndex)
  | typeLiteral (descriptor : ConstantIndex)
  | nested (type : ConstantIndex) (elements : List (ConstantIndex × ElementValue))
  | array (values : List ElementValue)
  deriving Repr

/-- An annotation: its type, as a descriptor, and its elements with their names. -/
structure Annotation where
  type : ConstantIndex
  elements : List (ConstantIndex × ElementValue)
  deriving Repr

/-- An annotation on something, and whether it is visible at run time. -/
structure AnnotationUse where
  body : Annotation
  visible : Bool
  deriving Repr

/-- The letter that tells which kind of value follows. -/
def ElementValue.tag : ElementValue → Char
  | number type _ => type.letter
  | string _ => 's'
  | enumeration .. => 'e'
  | typeLiteral _ => 'c'
  | nested .. => '@'
  | array _ => '['

end Classfile
