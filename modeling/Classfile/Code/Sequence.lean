import Classfile.Code.Visit

/-!
Editable sequences of instructions. An instruction is known by a handle that it keeps for as long as
it stays in the sequence, and jumps refer to the handles of their targets. Every edit that would
leave a jump without its target is refused.
-/
namespace Classfile

/-- A place that instructions are known by, one after another. -/
structure HandleSlot where
  generation : UInt32
  live : Bool
  deriving DecidableEq, Repr

/-- The instructions in their order, each with its handle. A slot whose instruction has gone is used
again for the next instruction that comes; the slot freed last is used first. -/
structure InstructionSeq where
  items : Array (Handle × Instruction Handle)
  slots : Array HandleSlot
  free : List UInt32

namespace InstructionSeq

def empty : InstructionSeq := ⟨#[], #[], []⟩

def size (s : InstructionSeq) : Nat := s.items.size

def isEmpty (s : InstructionSeq) : Bool := s.items.isEmpty

def toList (s : InstructionSeq) : List (Handle × Instruction Handle) := s.items.toList

/-- Is the handle that of an instruction in the sequence? -/
def contains (s : InstructionSeq) (h : Handle) : Bool :=
  s.slots[h.index.toNat]? = some ⟨h.generation, true⟩

/-- Where in the sequence the instruction with a handle stands. -/
def position? (s : InstructionSeq) (h : Handle) : Option Nat :=
  if s.contains h then s.items.findIdx? fun item => item.1 = h else none

def get? (s : InstructionSeq) (h : Handle) : Option (Instruction Handle) := do
  (s.items[← s.position? h]?).map (·.2)

def handleAt? (s : InstructionSeq) (position : Nat) : Option Handle :=
  s.items[position]?.map (·.1)

def first? (s : InstructionSeq) : Option Handle := s.handleAt? 0
def last? (s : InstructionSeq) : Option Handle := s.items.back?.map (·.1)

def next? (s : InstructionSeq) (h : Handle) : Option Handle := do
  s.handleAt? ((← s.position? h) + 1)

def prev? (s : InstructionSeq) (h : Handle) : Option Handle := do
  match ← s.position? h with
  | 0 => none
  | position + 1 => s.handleAt? position

/-- The instructions that have a target, in their order. -/
def targeters (s : InstructionSeq) (target : Handle) : List Handle :=
  (s.toList.filter fun (_, i) => i.targets.contains target).map (·.1)

/-- The first instruction that is equal to the given one. -/
def find? (s : InstructionSeq) (i : Instruction Handle) : Option Handle :=
  (s.toList.find? fun item => item.2 = i).map (·.1)

/-- Fail on a handle that is not in the sequence. -/
def checkLive (s : InstructionSeq) (h : Handle) : Except Fault Unit :=
  if s.contains h then .ok () else .error (.staleHandle h)

/-- Fail on the first target that is not in the sequence. -/
def checkTargets (s : InstructionSeq) (i : Instruction Handle) : Except Fault Unit :=
  i.targets.forM s.checkLive

/-- The handle of the next instruction that comes. -/
def freshHandle (s : InstructionSeq) : Handle :=
  match s.free with
  | [] => ⟨UInt32.ofNat s.slots.size, 0⟩
  | index :: _ => ⟨index, (s.slots[index.toNat]?.map (·.generation)).getD 0⟩

/-- Put an instruction at a position. Nothing is checked. -/
def place (s : InstructionSeq) (position : Nat) (i : Instruction Handle) :
    Handle × InstructionSeq :=
  let h := s.freshHandle
  match s with
  | ⟨items, slots, []⟩ => (h, ⟨items.insertIdxIfInBounds position (h, i), slots.push ⟨0, true⟩, []⟩)
  | ⟨items, slots, index :: free⟩ =>
    (h, ⟨items.insertIdxIfInBounds position (h, i),
      slots.setIfInBounds index.toNat ⟨h.generation, true⟩, free⟩)

def append (s : InstructionSeq) (i : Instruction Handle) :
    Except Fault (Handle × InstructionSeq) := do
  s.checkTargets i
  return s.place s.size i

/-- The position of an instruction that has to be there. -/
def position (s : InstructionSeq) (h : Handle) : Except Fault Nat :=
  match s.position? h with
  | some position => .ok position
  | none => .error (.staleHandle h)

def insertBefore (s : InstructionSeq) (h : Handle) (i : Instruction Handle) :
    Except Fault (Handle × InstructionSeq) := do
  let position ← s.position h
  s.checkTargets i
  return s.place position i

def insertAfter (s : InstructionSeq) (h : Handle) (i : Instruction Handle) :
    Except Fault (Handle × InstructionSeq) := do
  let position ← s.position h
  s.checkTargets i
  return s.place (position + 1) i

/-- Take an instruction out. It may be its own target, but no other instruction's. -/
def remove (s : InstructionSeq) (h : Handle) :
    Except Fault (Instruction Handle × InstructionSeq) := do
  let position ← s.position h
  let others := (s.targeters h).filter (· ≠ h)
  unless others.isEmpty do throw (.stillTargeted others)
  match s.items[position]? with
  | none => throw (.staleHandle h)
  | some (_, i) =>
    return (i, ⟨s.items.eraseIdxIfInBounds position,
      s.slots.setIfInBounds h.index.toNat ⟨h.generation + 1, false⟩, h.index :: s.free⟩)

/-- Put another instruction in the place of one, which keeps its handle. -/
def replace (s : InstructionSeq) (h : Handle) (i : Instruction Handle) :
    Except Fault (Instruction Handle × InstructionSeq) := do
  let position ← s.position h
  s.checkTargets i
  match s.items[position]? with
  | none => throw (.staleHandle h)
  | some (_, old) => return (old, { s with items := s.items.setIfInBounds position (h, i) })

/-- Let a jump, or the default of a switch, go to another target. Says whether the instruction has a
target at all. -/
def setTarget (s : InstructionSeq) (h target : Handle) : Except Fault (Bool × InstructionSeq) := do
  let position ← s.position h
  s.checkLive target
  match s.items[position]?.bind fun item => item.2.setTarget? target with
  | none => return (false, s)
  | some i => return (true, { s with items := s.items.setIfInBounds position (h, i) })

/-- How many targets of the sequence are the given one. -/
def countTargets (s : InstructionSeq) (target : Handle) : Nat :=
  (s.toList.flatMap fun (_, i) => i.targets).count target

/-- Let everything that goes to `old` go to `new`. Says how many targets that were. -/
def redirect (s : InstructionSeq) (old new : Handle) : Except Fault (Nat × InstructionSeq) := do
  s.checkLive new
  return (s.countTargets old, { s with
    items := s.items.map fun (h, i) => (h, i.mapTargets fun t => if t = old then new else t) })

/-- The handle that the instruction at a position of a new sequence gets. -/
def handleOf (position : Nat) : Handle := ⟨UInt32.ofNat position, 0⟩

/-- The sequence of some instructions, with handles in their order. -/
def ofList (instructions : List (Instruction Handle)) : InstructionSeq :=
  ⟨(instructions.zipIdx.map fun (i, position) => (handleOf position, i)).toArray,
    Array.replicate instructions.length ⟨0, true⟩, []⟩

/-- Everything that a visitor is told of the instructions, in their order. -/
def hooks (s : InstructionSeq) : List Hook := s.toList.flatMap fun (_, i) => i.hooks

end InstructionSeq

end Classfile
