import Classfile.Fault
import Std.Data.HashMap

/-!
The constant pool. It only grows, and adding a constant that it already holds gives the index of the
first equal one. Indices begin at one; a wide constant takes two slots, of which the second is no
index of a constant.
-/
namespace Classfile

structure ConstantPool where
  table : WidthTable Constant
  indices : Std.HashMap Constant ConstantIndex

/-- What the pool holds at an index. -/
inductive Slot
  /-- Zero, or an index from which no constant starts any more. -/
  | unused
  | entry (constant : Constant)
  /-- The second slot of a wide constant. -/
  | phantom
  deriving DecidableEq, Repr

namespace ConstantPool

def empty : ConstantPool := ⟨WidthTable.startingAt 1, ∅⟩

/-- The greatest count of slots, the unused first one among them, that a class file can state. -/
def capacity : Nat := 65535

/-- The index that the next constant will get. -/
def extent (pool : ConstantPool) : Nat := pool.table.extent

/-- How many constants there are. -/
def size (pool : ConstantPool) : Nat := pool.table.size

def isEmpty (pool : ConstantPool) : Bool := pool.table.isEmpty

def toList (pool : ConstantPool) : List (ConstantIndex × Constant) :=
  pool.table.toList.map fun (offset, c) => (⟨UInt16.ofNat offset⟩, c)

/-- The index of a constant that the pool holds. -/
def lookup (pool : ConstantPool) (c : Constant) : Option ConstantIndex := pool.indices[c]?

def slot (pool : ConstantPool) (i : ConstantIndex) : Slot :=
  match pool.table.locate i.value.toNat with
  | .start _ c => .entry c
  | .inside _ => if i.value = 0 then .unused else .phantom
  | .beyond => .unused

def get? (pool : ConstantPool) (i : ConstantIndex) : Option Constant :=
  pool.table.find? i.value.toNat

def get (pool : ConstantPool) (i : ConstantIndex) : Except Fault Constant :=
  match pool.get? i with
  | some c => .ok c
  | none => .error (.noConstant i)

/-- The constant with an index, which has to play a role. -/
def require (pool : ConstantPool) (role : Role) (i : ConstantIndex) : Except Fault Constant := do
  let c ← pool.get i
  if role.accepts c then return c else throw (.wrongConstant i role)

/-- Every constant that `c` refers to is there and plays its role. -/
def checkReferences (pool : ConstantPool) (c : Constant) : Except Fault Unit :=
  c.references.forM fun (i, role) => do discard (pool.require role i)

/-- A pool of given constants, which may refer to each other in any order. -/
def ofTable (table : WidthTable Constant) : Except Fault ConstantPool := do
  if table.extent > capacity then throw (.malformedClass .poolTooLarge)
  let indices := table.entries.foldl
    (fun indices (offset, c) => indices.insertIfNew c ⟨UInt16.ofNat offset⟩) ∅
  let pool : ConstantPool := ⟨table, indices⟩
  table.toList.forM fun (_, c) => pool.checkReferences c
  return pool

end ConstantPool

/-- Computations that can add to the pool. What was added before a fault stays. -/
abbrev PoolM := EStateM Fault ConstantPool

namespace PoolM

/-- Ask the pool without changing it. -/
def ask {α : Type} (question : ConstantPool → Except Fault α) : PoolM α := fun pool =>
  match question pool with
  | .ok a => .ok a pool
  | .error e => .error e pool

/-- Find a constant or add it. A constant that is added may only refer to constants that are
there. -/
def add (c : Constant) : PoolM ConstantIndex := fun pool =>
  match pool.lookup c with
  | some i => .ok i pool
  | none =>
    match c.references.find? fun (i, _) => (pool.get? i).isNone with
    | some (i, _) => .error (.noConstant i) pool
    | none =>
      let offset := pool.extent
      if offset + c.width > ConstantPool.capacity then .error (.poolOverflow c offset) pool
      else
        let index : ConstantIndex := ⟨UInt16.ofNat offset⟩
        .ok index ⟨pool.table.push c, pool.indices.insert c index⟩

def addText (text : String) : PoolM ConstantIndex := add (.utf8 text)

def addString (text : String) : PoolM ConstantIndex := do
  add (.string (← addText text))

/-- The name is in its internal form. An array class is named by its descriptor. -/
def addTypeName (name : String) : PoolM ConstantIndex := do
  add (.typeName (← addText name))

def addSignature (name descriptor : String) : PoolM ConstantIndex := do
  add (.nameAndType (← addText name) (← addText descriptor))

def addFieldRef (owner name descriptor : String) : PoolM ConstantIndex := do
  add (.fieldRef (← addTypeName owner) (← addSignature name descriptor))

def addMethodRef (ofInterface : Bool) (owner name descriptor : String) : PoolM ConstantIndex := do
  add (.methodRef ofInterface (← addTypeName owner) (← addSignature name descriptor))

def addMethodType (descriptor : String) : PoolM ConstantIndex := do
  add (.methodType (← addText descriptor))

/-- A handle of a field needs a field for its member, and any other handle a method. -/
def addMethodHandle (kind : HandleKind) (member : ConstantIndex) : PoolM ConstantIndex := do
  discard (ask fun pool => pool.require (if kind.isField then .fieldRef else .methodRef) member)
  add (.methodHandle kind member)

def addInvokeDynamic (bootstrap : UInt16) (name descriptor : String) : PoolM ConstantIndex := do
  add (.invokeDynamic bootstrap (← addSignature name descriptor))

end PoolM

end Classfile
