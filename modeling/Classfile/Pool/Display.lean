import Classfile.Pool.Access

/-! Constants for people to read, with everything that they refer to. -/
namespace Classfile.ConstantPool

/-- The text of a constant. Only a method handle shows another constant in full; `depth` bounds how
many of them may follow on each other. -/
def render (pool : ConstantPool) : Nat → ConstantIndex → Except Fault String
  | 0, i => .error (.noConstant i)
  | depth + 1, i => do
    match ← pool.get i with
    | .utf8 text => return text
    | .integer value => return toString value
    | .float bits => return singleText bits ++ "f"
    | .long value => return s!"{value}L"
    | .double bits => return doubleText bits ++ "d"
    | .string text => return Quoted.string (← pool.text text)
    | .typeName name | .moduleName name | .packageName name => pool.text name
    | .fieldRef .. | .methodRef .. =>
      let (owner, name, descriptor) ← pool.member i
      return s!"{owner}.{name}:{descriptor}"
    | .nameAndType name descriptor =>
      return (← pool.text name) ++ ":" ++ (← pool.text descriptor)
    | .methodHandle kind member => return kind.name ++ " " ++ (← pool.render depth member)
    | .methodType descriptor => pool.text descriptor
    | .dynamic bootstrap signature | .invokeDynamic bootstrap signature =>
      let (name, descriptor) ← pool.signature signature
      return s!"#{bootstrap}:{name}:{descriptor}"

/-- The text of the constant with an index. A chain of method handles is never longer than the
pool. -/
def display (pool : ConstantPool) (i : ConstantIndex) : String :=
  match pool.render (pool.size + 1) i with
  | .ok text => text
  | .error _ => "<invalid " ++ i.describe ++ ">"

end Classfile.ConstantPool
