import Classfile.Constant.Basic
import Classfile.Decimal.FloatText
import Classfile.Text.Quoted

/-! Constants spelled out with their raw operands, as messages show them. -/
namespace Classfile

/-- Named operands between braces. -/
def recordText (name : String) (operands : List (String × String)) : String :=
  name ++ " \x7b " ++ ", ".intercalate (operands.map fun (key, text) => key ++ ": " ++ text) ++
    " \x7d"

/-- Operands between parentheses. -/
def tupleText (name : String) (operands : List String) : String :=
  name ++ "(" ++ ", ".intercalate operands ++ ")"

namespace ConstantIndex

/-- The index as people write it. -/
def describe (i : ConstantIndex) : String := s!"#{i.value}"

def spell (i : ConstantIndex) : String := tupleText "ConstantIndex" [toString i.value]

/-- An index that is known to be of a constant of some kind. -/
def spellAs (kind : String) (i : ConstantIndex) : String :=
  tupleText (kind ++ "ConstantIndex") [i.spell]

end ConstantIndex

namespace Constant

def spell : Constant → String
  | utf8 text => tupleText "Utf8" [Quoted.string text]
  | integer value => tupleText "Integer" [toString value]
  | float bits => tupleText "Float" [singleText bits]
  | long value => tupleText "Long" [toString value]
  | double bits => tupleText "Double" [doubleText bits]
  | typeName name => tupleText "Class" [name.spellAs "Utf8"]
  | string text => tupleText "String" [text.spellAs "Utf8"]
  | fieldRef owner signature =>
    tupleText "FieldRef" [owner.spellAs "Class", signature.spellAs "NameAndType"]
  | methodRef ofInterface owner signature =>
    recordText "MethodRef" [("class", owner.spellAs "Class"),
      ("name_and_type", signature.spellAs "NameAndType"), ("is_interface", toString ofInterface)]
  | nameAndType name descriptor =>
    recordText "NameAndType" [("name", name.spellAs "Utf8"),
      ("descriptor", descriptor.spellAs "Utf8")]
  | methodHandle kind member =>
    recordText "MethodHandle" [("handle_kind", kind.name), ("member", member.spell)]
  | methodType descriptor =>
    recordText "MethodType" [("descriptor", descriptor.spellAs "Utf8")]
  | dynamic bootstrap signature =>
    recordText "Dynamic" [("bootstrap_method", toString bootstrap),
      ("name_and_type", signature.spellAs "NameAndType")]
  | invokeDynamic bootstrap signature =>
    recordText "InvokeDynamic" [("bootstrap_method", toString bootstrap),
      ("method_descriptor", signature.spellAs "NameAndType")]
  | moduleName name => tupleText "Module" [name.spellAs "Utf8"]
  | packageName name => tupleText "Package" [name.spellAs "Utf8"]

end Constant

end Classfile
