import Classfile.Annotation.Basic
import Classfile.Pool.Access

/-! Carrying annotations over from one pool to another, where they get indices of their own. -/
namespace Classfile

namespace ConstantIndex

/-- Add the text that the index stands for in the pool `source`. -/
def copyText (source : ConstantPool) (i : ConstantIndex) : PoolM ConstantIndex := do
  PoolM.addText (← PoolM.ask fun _ => source.text i)

/-- Add the constant with the index in the pool `source`. -/
def copyConstant (source : ConstantPool) (i : ConstantIndex) : PoolM ConstantIndex := do
  PoolM.add (← PoolM.ask fun _ => source.get i)

end ConstantIndex

namespace ElementValue

mutual

def copy (source : ConstantPool) : ElementValue → PoolM ElementValue
  | number type value => do return number type (← value.copyConstant source)
  | string text => do return string (← text.copyText source)
  | enumeration type name => do
    return enumeration (← type.copyText source) (← name.copyText source)
  | typeLiteral descriptor => do return typeLiteral (← descriptor.copyText source)
  | nested type elements => do
    return nested (← type.copyText source) (← copyElements source [] elements)
  | array values => do return array (← copyValues source [] values)

/-- A copy of each value, behind those that `done` holds in reverse. -/
def copyValues (source : ConstantPool) (done : List ElementValue) :
    List ElementValue → PoolM (List ElementValue)
  | [] => return done.reverse
  | value :: values => do
    let copied ← copy source value
    copyValues source (copied :: done) values

/-- A copy of each element, behind those that `done` holds in reverse. -/
def copyElements (source : ConstantPool) (done : List (ConstantIndex × ElementValue)) :
    List (ConstantIndex × ElementValue) → PoolM (List (ConstantIndex × ElementValue))
  | [] => return done.reverse
  | (name, value) :: elements => do
    let name ← name.copyText source
    let copied ← copy source value
    copyElements source ((name, copied) :: done) elements

end

end ElementValue

def Annotation.copy (source : ConstantPool) (a : Annotation) : PoolM Annotation := do
  return ⟨← a.type.copyText source, ← ElementValue.copyElements source [] a.elements⟩

def AnnotationUse.copy (source : ConstantPool) (u : AnnotationUse) : PoolM AnnotationUse := do
  return ⟨← u.body.copy source, u.visible⟩

end Classfile
