import Classfile.Code.Encoding
import Classfile.Code.Sequence

/-!
Reading code. Instructions are read one after another with offsets for targets; then each gets its
handle, and an offset turns into the handle of the instruction that starts there. Whatever is wrong
with an instruction is reported at the offset at which it starts.
-/
namespace Classfile

/-- The bytes that are still to be read, and the offset of the first of them. -/
structure CodeCursor where
  offset : Nat
  rest : List UInt8

abbrev CodeReader := StateT CodeCursor (Except Fault)

namespace CodeReader

variable {α : Type}

def flaw (start : Nat) (f : CodeFlaw) : CodeReader α := throw (.malformedCode start f)

/-- A part of `size` bytes of the instruction that begins at `start`. -/
def part (start size : Nat) (r : Reader α) : CodeReader α := fun c =>
  match r c.rest with
  | .ok (a, rest) => .ok (a, ⟨c.offset + size, rest⟩)
  | .error _ => .error (.malformedCode start .truncatedInstruction)

def remaining : CodeReader Nat := do return (← get).rest.length

/-- An index of a constant that has to play a role. -/
def index (start : Nat) (pool : ConstantPool) (role : Role) : CodeReader ConstantIndex := do
  let i ← part start 2 ConstantIndex.read
  pool.checked role i

/-- A target, given in two bytes by its distance. -/
def narrowTarget (start : Nat) : CodeReader Int := do
  return start + (← part start 2 Reader.i16).toInt

/-- A target, given in four bytes by its distance. -/
def wideTarget (start : Nat) : CodeReader Int := do
  return start + (← part start 4 Reader.i32).toInt

end CodeReader

namespace Instruction

open CodeReader

/-- The instruction that a byte stands for all by itself: one that uses one of the first four
variables. -/
def ofShortByte? (byte : UInt8) : Option (Instruction Int) :=
  if shortLoadByte ≤ byte ∧ byte < shortLoadByte + 20 then do
    let n := byte - shortLoadByte
    return load (← VariableType.ofRank? (n / 4)) (n % 4).toUInt16
  else if shortStoreByte ≤ byte ∧ byte < shortStoreByte + 20 then do
    let n := byte - shortStoreByte
    return store (← VariableType.ofRank? (n / 4)) (n % 4).toUInt16
  else none

/-- What follows the byte that widens. -/
def readWide (start : Nat) : CodeReader (Instruction Int) := do
  let byte ← part start 1 Reader.u8
  match Opcode.ofByte? byte with
  | some (.load type) => return load type (← part start 2 Reader.u16)
  | some (.store type) => return store type (← part start 2 Reader.u16)
  | some .ret => return ret (← part start 2 Reader.u16)
  | some .increment => return increment (← part start 2 Reader.u16) (← part start 2 Reader.i16)
  | _ => flaw start (.notWidenable byte)

/-- Bounds and targets of a table switch. -/
def readTableSwitch (start : Nat) : CodeReader (Instruction Int) := do
  discard (part start (switchPadding start) (Reader.bytes (switchPadding start)))
  let default ← wideTarget start
  let low ← part start 4 Reader.i32
  let high ← part start 4 Reader.i32
  if high < low then flaw start (.invertedBounds low high)
  let count := (high.toInt - low.toInt + 1).toNat
  if count * 4 > (← remaining) then flaw start .truncatedCases
  let cases ← part start (count * 4) (Reader.times count Reader.i32)
  return tableSwitch default low (cases.map fun d => start + d.toInt)

/-- Keys and targets of a lookup switch. -/
def readLookupSwitch (start : Nat) : CodeReader (Instruction Int) := do
  discard (part start (switchPadding start) (Reader.bytes (switchPadding start)))
  let default ← wideTarget start
  let pairCount ← part start 4 Reader.i32
  let count := pairCount.toInt.toNat
  if pairCount < 0 ∨ count * 8 > (← remaining) then flaw start (.badPairCount pairCount)
  let cases ← part start (count * 8) (Reader.times count do
    return (← Reader.i32, ← Reader.i32))
  return lookupSwitch default (cases.map fun (key, d) => (key, start + d.toInt))

/-- The operands of an opcode. -/
def readOperands (pool : ConstantPool) (start : Nat) : Opcode → CodeReader (Instruction Int)
  | .simple op => return simple op
  | .pushByte => return pushByte (← part start 1 Reader.i8)
  | .pushShort => return pushShort (← part start 2 Reader.i16)
  | .constant => do
    let byte ← part start 1 Reader.u8
    return constant (← pool.checked .loadable ⟨byte.toUInt16⟩)
  | .wideConstant => return wideConstant (← index start pool .wideLoadable)
  | .load type => return load type (← part start 1 Reader.u8).toUInt16
  | .store type => return store type (← part start 1 Reader.u8).toUInt16
  | .increment => do
    let slot ← part start 1 Reader.u8
    let amount ← part start 1 Reader.i8
    return increment slot.toUInt16 amount.toInt16
  | .branch condition => return branch condition (← narrowTarget start)
  | .jump kind => return jump kind (← narrowTarget start)
  | .ret => return ret (← part start 1 Reader.u8).toUInt16
  | .tableSwitch => readTableSwitch start
  | .lookupSwitch => readLookupSwitch start
  | .field access => return field access (← index start pool .fieldRef)
  | .invoke mode => return invoke mode (← index start pool .methodRef)
  | .invokeInterface => do
    let method ← index start pool .methodRef
    let count ← part start 1 Reader.u8
    discard (part start 1 Reader.u8)
    return invokeInterface method count
  | .invokeDynamic => do
    let i ← part start 2 ConstantIndex.read
    discard (part start 2 Reader.u16)
    return invokeDynamic (← pool.checked .invokeDynamic i)
  | .typeOp operation => return typeOp operation (← index start pool .typeName)
  | .newArray => do
    let code ← part start 1 Reader.u8
    match BaseType.ofArrayCode? code with
    | some element => return newArray element
    | none => flaw start (.badArrayType code)
  | .multiNewArray => do
    let type ← index start pool .typeName
    return multiNewArray type (← part start 1 Reader.u8)
  | .wideJump kind => return wideJump kind (← wideTarget start)

/-- The instruction that begins at `start`. -/
def read (pool : ConstantPool) (start : Nat) : CodeReader (Instruction Int) := do
  let byte ← part start 1 Reader.u8
  if byte = widePrefixByte then readWide start
  else if byte = longConstantByte then return constant (← index start pool .loadable)
  else
    match ofShortByte? byte with
    | some i => return i
    | none =>
      match Opcode.ofByte? byte with
      | some o => readOperands pool start o
      | none => flaw start (.unknownOpcode byte)

/-- Instructions with their offsets, put behind those that `done` holds in reverse. Each one takes a
byte at least, so there are no more of them than bytes. -/
def readAllOnto (pool : ConstantPool) (done : List (Nat × Instruction Int)) :
    Nat → CodeCursor → Except Fault (List (Nat × Instruction Int))
  | 0, _ => .ok done.reverse
  | more + 1, c =>
    if c.rest.isEmpty then .ok done.reverse
    else
      match (read pool c.offset).run c with
      | .ok (i, next) => readAllOnto pool ((c.offset, i) :: done) more next
      | .error e => .error e

/-- All instructions of some code, with their offsets. -/
def readAll (pool : ConstantPool) (code : List UInt8) :
    Except Fault (List (Nat × Instruction Int)) :=
  readAllOnto pool [] code.length ⟨0, code⟩

end Instruction

/-- Instructions that were read, and the offset at which each of them was. -/
structure DecodedCode where
  instructions : InstructionSeq
  offsets : Array (Nat × Handle)

/-- The handle of the instruction that starts at an offset. -/
def handleAtOffset? (offsets : Array (Nat × Handle)) (offset : Nat) : Option Handle :=
  match offsets[lowerBound offsets offset]? with
  | some (start, h) => if start = offset then some h else none
  | none => none

namespace DecodedCode

def handleAt? (d : DecodedCode) (offset : Nat) : Option Handle := handleAtOffset? d.offsets offset

/-- The handle of the last instruction that starts before an offset. -/
def handleBefore? (d : DecodedCode) (offset : Nat) : Option Handle :=
  match lowerBound d.offsets offset with
  | 0 => none
  | position + 1 => d.offsets[position]?.map (·.2)

end DecodedCode

/-- Read code. Every target has to be where an instruction starts. -/
def decodeCode (pool : ConstantPool) (code : List UInt8) : Except Fault DecodedCode := do
  let items ← Instruction.readAll pool code
  let offsets := (items.zipIdx.map fun (item, position) =>
    (item.1, InstructionSeq.handleOf position)).toArray
  let instructions ← items.mapM fun (start, i) => i.resolve fun target =>
    match if target < 0 then none else handleAtOffset? offsets target.toNat with
    | some h => .ok h
    | none => .error (.malformedCode start (.offInstruction target))
  return ⟨InstructionSeq.ofList instructions, offsets⟩

end Classfile
