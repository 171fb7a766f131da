import Classfile.Constant.Text

/-! Handles of instructions. -/
namespace Classfile

/-- A stable reference to an instruction of a sequence: a slot, and how many instructions have left
that slot before this one came. -/
structure Handle where
  index : UInt32
  generation : UInt32
  deriving DecidableEq, Hashable, Repr

namespace Handle

/-- The first generation is not written. -/
def describe (h : Handle) : String :=
  if h.generation = 0 then s!"@{h.index}" else s!"@{h.index}.{h.generation}"

/-- The handle spelled out, as messages show it. -/
def spell (h : Handle) : String :=
  recordText "InstructionHandle"
    [("index", toString h.index), ("generation", toString h.generation)]

end Handle

end Classfile
