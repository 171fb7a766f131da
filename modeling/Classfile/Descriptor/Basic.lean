import Classfile.WidthTable

/-! Types of fields and methods, and their descriptors. -/
namespace Classfile

inductive BaseType
  | byte
  | char
  | double
  | float
  | int
  | long
  | short
  | boolean
  deriving DecidableEq, Repr

namespace BaseType

def all : List BaseType := [byte, char, double, float, int, long, short, boolean]

/-- The letter that stands for the type in a descriptor. -/
def letter : BaseType → Char
  | byte => 'B'
  | char => 'C'
  | double => 'D'
  | float => 'F'
  | int => 'I'
  | long => 'J'
  | short => 'S'
  | boolean => 'Z'

def keyword : BaseType → String
  | byte => "byte"
  | char => "char"
  | double => "double"
  | float => "float"
  | int => "int"
  | long => "long"
  | short => "short"
  | boolean => "boolean"

/-- The code that stands for the type when an array of it is made. -/
def arrayCode : BaseType → UInt8
  | boolean => 4
  | char => 5
  | float => 6
  | double => 7
  | byte => 8
  | short => 9
  | int => 10
  | long => 11

def ofLetter? (c : Char) : Option BaseType := all.find? fun t => t.letter = c
def ofKeyword? (word : String) : Option BaseType := all.find? fun t => t.keyword = word
def ofArrayCode? (code : UInt8) : Option BaseType := all.find? fun t => t.arrayCode = code

/-- How many local variables a value takes. -/
def width : BaseType → Nat
  | double | long => 2
  | _ => 1

instance : Width BaseType := ⟨width⟩

end BaseType

/-- The type of a field, a parameter or a local variable. Class names are in their internal form,
with slashes. -/
inductive FieldType
  | base (type : BaseType)
  | object (name : String)
  | array (element : FieldType)
  deriving DecidableEq, Repr

namespace FieldType

def width : FieldType → Nat
  | base type => type.width
  | _ => 1

instance : Width FieldType := ⟨width⟩

def isString (t : FieldType) : Bool := t = object "java/lang/String"

/-- How many dimensions an array has, and what it holds in the end. -/
def dimensions : FieldType → Nat × FieldType
  | array element => (element.dimensions.1 + 1, element.dimensions.2)
  | t => (0, t)

def describeChars : FieldType → List Char
  | base type => [type.letter]
  | object name => 'L' :: name.toList ++ [';']
  | array element => '[' :: element.describeChars

/-- The descriptor of the type. -/
def describe (t : FieldType) : String := String.ofList t.describeChars

end FieldType

/-- The parameters of a method and what it returns, if anything. -/
structure MethodDescriptor where
  parameters : List FieldType
  returns : Option FieldType
  deriving DecidableEq, Repr

namespace MethodDescriptor

/-- How many local variables the parameters take, with one more for the receiver if there is
one. -/
def parameterLength (d : MethodDescriptor) (receiver : Bool) : Nat :=
  d.parameters.foldl (fun count type => count + type.width) (if receiver then 1 else 0)

def describeChars (d : MethodDescriptor) : List Char :=
  '(' :: d.parameters.flatMap FieldType.describeChars ++ ')' ::
    match d.returns with
    | none => ['V']
    | some type => type.describeChars

def describe (d : MethodDescriptor) : String := String.ofList d.describeChars

end MethodDescriptor

end Classfile
