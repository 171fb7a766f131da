import Classfile.Annotation.Basic
import Classfile.Pool.Display

/-! Annotations for people to read, much as they stand in source code. -/
namespace Classfile

namespace ElementValue

/-- Truth values are the numbers zero and any other. -/
def displayBoolean (pool : ConstantPool) (i : ConstantIndex) : String :=
  match pool.get? i with
  | some (.integer value) => if value = 0 then "false" else "true"
  | _ => pool.display i

def displayString (pool : ConstantPool) (i : ConstantIndex) : String :=
  match pool.text i with
  | .ok text => Quoted.string text
  | .error _ => pool.display i

mutual

def display (pool : ConstantPool) : ElementValue → String
  | number .boolean value => displayBoolean pool value
  | number _ value => pool.display value
  | string text => displayString pool text
  | enumeration type name => pool.display type ++ "." ++ pool.display name
  | typeLiteral descriptor => pool.display descriptor ++ ".class"
  | nested type elements =>
    "@" ++ pool.display type ++ "(" ++ ",".intercalate (displayElements pool [] elements) ++ ")"
  | array values => "\x7b" ++ ",".intercalate (displayValues pool [] values) ++ "\x7d"

/-- The text of each value, behind those that `done` holds in reverse. -/
def displayValues (pool : ConstantPool) (done : List String) : List ElementValue → List String
  | [] => done.reverse
  | value :: values => displayValues pool (display pool value :: done) values

/-- The text of each element, behind those that `done` holds in reverse. -/
def displayElements (pool : ConstantPool) (done : List String) :
    List (ConstantIndex × ElementValue) → List String
  | [] => done.reverse
  | (name, value) :: elements =>
    displayElements pool ((pool.display name ++ "=" ++ display pool value) :: done) elements

end

end ElementValue

def Annotation.display (pool : ConstantPool) (a : Annotation) : String :=
  (ElementValue.nested a.type a.elements).display pool

def AnnotationUse.display (pool : ConstantPool) (u : AnnotationUse) : String :=
  u.body.display pool

end Classfile
