import Classfile.Fault
import Classfile.Code.Instruction

/-!
Sequences of instructions as they lie in memory. Every instruction has a slot, and it is linked to
the instructions next to it by the numbers of their slots. A slot that was given up is put on a
stack, from which the next instruction takes its slot, and it counts how often it was given up.
-/
namespace Classfile

/-- An instruction, with the slots of those before and behind it. -/
structure ArenaNode where
  instruction : Instruction Handle
  prev : Option UInt32
  next : Option UInt32

structure ArenaSlot where
  generation : UInt32
  node : Option ArenaNode

namespace ArenaSlot

/-- The same slot with its node changed, if it has one. -/
def change (f : ArenaNode → ArenaNode) (slot : ArenaSlot) : ArenaSlot :=
  { slot with node := slot.node.map f }

def targets (slot : ArenaSlot) : List Handle :=
  match slot.node with
  | some node => node.instruction.targets
  | none => []

end ArenaSlot

structure Arena where
  slots : Array ArenaSlot
  free : List UInt32
  head : Option UInt32
  tail : Option UInt32
  size : Nat

namespace Arena

def empty : Arena := ⟨#[], [], none, none, 0⟩

/-- The node in a slot. -/
def nodeAt? (a : Arena) (index : UInt32) : Option ArenaNode := do
  (← a.slots[index.toNat]?).node

/-- The arena with the node in a slot changed. -/
def change (a : Arena) (index : UInt32) (f : ArenaNode → ArenaNode) : Arena :=
  { a with slots := a.slots.modify index.toNat (ArenaSlot.change f) }

/-- The node of the instruction with a handle. -/
def node? (a : Arena) (h : Handle) : Option ArenaNode := do
  let slot ← a.slots[h.index.toNat]?
  if slot.generation = h.generation then slot.node else none

def contains (a : Arena) (h : Handle) : Bool := (a.node? h).isSome

def get? (a : Arena) (h : Handle) : Option (Instruction Handle) := (a.node? h).map (·.instruction)

/-! A link can be broken: it can lead to a slot that is not there. What follows a link gives nothing
then, and what looks for an end gives nothing if there is none. -/

/-- The handle that stands for a slot at present. -/
def handleOf? (a : Arena) (index : UInt32) : Option Handle :=
  a.slots[index.toNat]?.map fun slot => ⟨index, slot.generation⟩

/-- The handle of what a link leads to, if it leads anywhere at all. -/
def follow (a : Arena) : Option UInt32 → Option (Option Handle)
  | none => some none
  | some index => (a.handleOf? index).map some

def first (a : Arena) : Option (Option Handle) := a.follow a.head
def last (a : Arena) : Option (Option Handle) := a.follow a.tail

def next (a : Arena) (h : Handle) : Option (Option Handle) :=
  a.follow ((a.node? h).bind (·.next))

def prev (a : Arena) (h : Handle) : Option (Option Handle) :=
  a.follow ((a.node? h).bind (·.prev))

/-- What is seen on a walk that goes on from place to place until it has nowhere to go, or comes to
a place where nothing is. A walk over more places than there are goes round in a circle and would
never end, so it gives nothing. -/
def walk {κ ν : Type} (visit : κ → Option (Option (ν × Option κ))) :
    Nat → Option κ → Option (List ν)
  | _, none => some []
  | 0, some _ => none
  | places + 1, some place => do
    match ← visit place with
    | none => return []
    | some (seen, onward) => return seen :: (← walk visit places onward)

/-- The instruction in a slot, with its handle and the slot behind it. -/
def visit (a : Arena) (index : UInt32) :
    Option (Option ((Handle × Instruction Handle) × Option UInt32)) := do
  let slot ← a.slots[index.toNat]?
  return slot.node.map fun node => ((⟨index, slot.generation⟩, node.instruction), node.next)

/-- The instructions in their order, each with its handle. -/
def items (a : Arena) : Option (List (Handle × Instruction Handle)) :=
  walk a.visit a.slots.size a.head

def visitBack (a : Arena) (h : Handle) : Option (Option (Handle × Option Handle)) := do
  return some (h, ← a.prev h)

/-- The handles before a place, the nearest one first. -/
def handlesBack (a : Arena) (cursor : Option Handle) : Option (List Handle) :=
  walk a.visitBack a.slots.size cursor

/-- The instructions that have a target, in their order. -/
def targeters (a : Arena) (target : Handle) : Option (List Handle) := do
  return ((← a.items).filter fun (_, i) => i.targets.contains target).map (·.1)

end Arena

/-- Why an operation ends before it is done. -/
inductive ArenaFault
  | refused (fault : Fault)
  | broken

/-- Operations on the arena. What was done before a fault stays. -/
abbrev ArenaM := EStateM ArenaFault Arena

namespace ArenaM

variable {α : Type}

def ask (question : Arena → Option α) : ArenaM α := fun a =>
  match question a with
  | some answer => .ok answer a
  | none => .error .broken a

def refuse (fault : Fault) : ArenaM α := throw (.refused fault)

/-- The node of an instruction that has to be there. -/
def node (h : Handle) : ArenaM ArenaNode := do
  match (← get).node? h with
  | some node => return node
  | none => refuse (.staleHandle h)

def checkLive (h : Handle) : ArenaM Unit := do
  unless (← get).contains h do refuse (.staleHandle h)

def checkTargets (i : Instruction Handle) : ArenaM Unit := i.targets.forM checkLive

/-- Change what a link leads to. Gives the node as it was. -/
def modifyNode (index : UInt32) (f : ArenaNode → ArenaNode) : ArenaM ArenaNode := fun a =>
  match a.nodeAt? index with
  | some node => .ok node (a.change index f)
  | none => .error .broken a

/-- Let the link that leads on from `prev` lead to `next`. -/
def linkNext (prev next : Option UInt32) : ArenaM Unit :=
  match prev with
  | some index => discard (modifyNode index fun node => { node with next := next })
  | none => modify fun a => { a with head := next }

/-- Let the link that leads back from `next` lead to `prev`. -/
def linkPrev (next prev : Option UInt32) : ArenaM Unit :=
  match next with
  | some index => discard (modifyNode index fun node => { node with prev := prev })
  | none => modify fun a => { a with tail := prev }

/-- Put a node into the slot that was given up last, or else into a new one. -/
def allocate (node : ArenaNode) : ArenaM UInt32 := fun a =>
  match a.free with
  | [] =>
    .ok (UInt32.ofNat a.slots.size)
      { a with slots := a.slots.push ⟨0, some node⟩, size := a.size + 1 }
  | index :: free =>
    match a.slots[index.toNat]? with
    | some slot =>
      .ok index { a with
        slots := a.slots.setIfInBounds index.toNat { slot with node := some node }
        free := free
        size := a.size + 1 }
    | none => .error .broken a

/-- Take the node out of its slot. -/
def release (h : Handle) : ArenaM ArenaNode := fun a =>
  match a.slots[h.index.toNat]? with
  | some ⟨generation, some node⟩ =>
    .ok node { a with
      slots := a.slots.setIfInBounds h.index.toNat ⟨generation + 1, none⟩
      free := h.index :: a.free
      size := a.size - 1 }
  | some ⟨_, none⟩ => .error (.refused (.staleHandle h)) a
  | none => .error .broken a

/-- Put an instruction between two slots that are next to each other. -/
def splice (i : Instruction Handle) (prev next : Option UInt32) : ArenaM Handle := do
  let index ← allocate ⟨i, prev, next⟩
  linkNext prev (some index)
  linkPrev next (some index)
  ask fun a => a.handleOf? index

def append (i : Instruction Handle) : ArenaM Handle := do
  checkTargets i
  splice i (← get).tail none

def insertBefore (h : Handle) (i : Instruction Handle) : ArenaM Handle := do
  let node ← node h
  checkTargets i
  splice i node.prev (some h.index)

def insertAfter (h : Handle) (i : Instruction Handle) : ArenaM Handle := do
  let node ← node h
  checkTargets i
  splice i (some h.index) node.next

def remove (h : Handle) : ArenaM (Instruction Handle) := do
  checkLive h
  let others := (← ask fun a => a.targeters h).filter (· ≠ h)
  unless others.isEmpty do refuse (.stillTargeted others)
  let node ← release h
  linkNext node.prev node.next
  linkPrev node.next node.prev
  return node.instruction

def replace (h : Handle) (i : Instruction Handle) : ArenaM (Instruction Handle) := do
  checkLive h
  checkTargets i
  let old ← modifyNode h.index fun node => { node with instruction := i }
  return old.instruction

def setTarget (h target : Handle) : ArenaM Bool := do
  checkLive h
  checkLive target
  let old ← modifyNode h.index fun node =>
    { node with instruction := (node.instruction.setTarget? target).getD node.instruction }
  return (old.instruction.setTarget? target).isSome

/-- Slots are gone through as they lie in memory. -/
def redirect (old new : Handle) : ArenaM Nat := do
  checkLive new
  let count := ((← get).slots.toList.flatMap ArenaSlot.targets).count old
  modify fun a => { a with
    slots := a.slots.map (ArenaSlot.change fun node => { node with
      instruction := node.instruction.mapTargets fun t => if t = old then new else t }) }
  return count

end ArenaM

end Classfile
