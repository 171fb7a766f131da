import Classfile.Annotation.Binary
import Classfile.Pool.Access

/-! Which annotations fit a pool: every index is that of a constant of the right kind. -/
namespace Classfile

/-- The kind of constant that holds a number of the type. -/
def BaseType.role : BaseType → Role
  | .long => .long
  | .float => .float
  | .double => .double
  | _ => .integer

namespace ElementValue

mutual

def check (pool : ConstantPool) : ElementValue → Except Fault Unit
  | number type value => do discard (pool.require type.role value)
  | string i | typeLiteral i => do discard (pool.text i)
  | enumeration type name => do
    discard (pool.text type)
    discard (pool.text name)
  | nested type elements =>
    match pool.text type with
    | .ok _ => checkElements pool elements
    | .error e => .error e
  | array values => checkValues pool values

def checkValues (pool : ConstantPool) : List ElementValue → Except Fault Unit
  | [] => .ok ()
  | value :: values =>
    match check pool value with
    | .ok _ => checkValues pool values
    | .error e => .error e

def checkElements (pool : ConstantPool) :
    List (ConstantIndex × ElementValue) → Except Fault Unit
  | [] => .ok ()
  | (name, value) :: elements =>
    match pool.text name with
    | .error e => .error e
    | .ok _ =>
      match check pool value with
      | .ok _ => checkElements pool elements
      | .error e => .error e

end

end ElementValue

def Annotation.check (pool : ConstantPool) (a : Annotation) : Except Fault Unit := do
  discard (pool.text a.type)
  ElementValue.checkElements pool a.elements

def AnnotationUse.check (pool : ConstantPool) (u : AnnotationUse) : Except Fault Unit :=
  u.body.check pool

end Classfile
