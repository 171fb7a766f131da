import Classfile.Binary.Reader
import Classfile.Binary.Writer

/-! The version of a class file. -/
namespace Classfile

structure Version where
  major : UInt16
  minor : UInt16
  deriving DecidableEq, Repr

namespace Version

/-- The versions that have a name of their own. -/
def named : List (String × Version) := [
  ("JAVA5", ⟨49, 0⟩), ("JAVA6", ⟨50, 0⟩), ("JAVA7", ⟨51, 0⟩), ("JAVA8", ⟨52, 0⟩),
  ("JAVA11", ⟨55, 0⟩), ("JAVA17", ⟨61, 0⟩)]

def name? (v : Version) : Option String :=
  (named.find? fun entry => entry.2 = v).map (·.1)

/-- By major version, then by minor version. -/
def order (v w : Version) : Ordering :=
  (compare v.major w.major).then (compare v.minor w.minor)

/-- The minor version comes first. -/
def write (v : Version) : List UInt8 := Writer.u16 v.minor ++ Writer.u16 v.major

def read : Reader Version := do
  let minor ← Reader.u16
  let major ← Reader.u16
  return ⟨major, minor⟩

end Version

end Classfile
