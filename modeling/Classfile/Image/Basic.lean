import Classfile.Image.Member
import Classfile.Fault
import Classfile.Version

/-!
The image of a class: everything that its class file says, with indices that have not been checked.
-/
namespace Classfile

structure ClassImage where
  version : Version
  constants : WidthTable Constant
  flags : AccessFlags .type
  thisClass : ConstantIndex
  superClass : Option ConstantIndex
  interfaces : List ConstantIndex
  fields : List Field
  methods : List Method
  attributes : List Attribute

namespace ClassImage

/-- Images are the same if they agree in everything; constants are compared with their indices. -/
def same (a b : ClassImage) : Bool :=
  a.version = b.version && a.constants.same b.constants && a.flags = b.flags &&
    a.thisClass = b.thisClass && a.superClass = b.superClass && a.interfaces = b.interfaces &&
    a.fields = b.fields && a.methods = b.methods && a.attributes = b.attributes

/-- The name of the class in its internal form. -/
def name (c : ClassImage) : Except Fault String :=
  match c.constants.find? c.thisClass.value.toNat with
  | some (.typeName i) =>
    match c.constants.find? i.value.toNat with
    | some (.utf8 text) => .ok text
    | _ => .error (.wrongConstant i .utf8)
  | _ => .error (.wrongConstant c.thisClass .typeName)

end ClassImage

end Classfile
