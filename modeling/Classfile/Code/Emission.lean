import Classfile.Code.Layout

/-!
Writing code into a buffer, piece by piece behind what is there. Every instruction is written where
the one before it ended.
-/
namespace Classfile

/-- Computations that write code. What was written before a fault stays. -/
abbrev EmitM := EStateM Fault (List UInt8)

namespace EmitM

def put (piece : List UInt8) : EmitM Unit := fun code => .ok () (code ++ piece)

/-- Write a piece that may be impossible to make. -/
def putChecked (piece : Except Fault (List UInt8)) : EmitM Unit := fun code =>
  match piece with
  | .ok piece => put piece code
  | .error fault => .error fault code

end EmitM

namespace Instruction

open EmitM

variable {τ : Type}

/-- Write an instruction that loads or stores a variable. -/
def emitVariable (short normal : UInt8) (type : VariableType) (slot : UInt16) : EmitM Unit :=
  if slot.toNat < 4 then put [short + 4 * type.rank + slot.toUInt8]
  else if slot.toNat < 256 then do
    put [normal]
    put [slot.toUInt8]
  else do
    put [widePrefixByte]
    put [normal]
    put (Writer.u16 slot)

/-- Write the instruction, assuming that it starts at `offset`. -/
def emit (offset : Nat) (widened : Bool) (displacement : τ → Except Fault Int)
    (i : Instruction τ) : EmitM Unit :=
  let o := i.opcode.byte
  let putNarrow := fun target => putChecked (narrowJump offset displacement target)
  let putWide := fun target => putChecked (wideJumpBytes offset displacement target)
  let padding := List.replicate (switchPadding offset) (0 : UInt8)
  match i with
  | simple _ => put [o]
  | pushByte value => do
    put [o]
    put (Writer.i8 value)
  | pushShort value => do
    put [o]
    put (Writer.i16 value)
  | constant index =>
    if index.value.toNat < 256 then do
      put [o]
      put [index.value.toUInt8]
    else do
      put [longConstantByte]
      put index.write
  | wideConstant index | field _ index | invoke _ index | typeOp _ index => do
    put [o]
    put index.write
  | load type slot => emitVariable shortLoadByte o type slot
  | store type slot => emitVariable shortStoreByte o type slot
  | increment slot amount =>
    if slot.toNat < 256 ∧ -128 ≤ amount.toInt ∧ amount.toInt ≤ 127 then do
      put [o]
      put [slot.toUInt8]
      put [amount.toInt8.toUInt8]
    else do
      put [widePrefixByte]
      put [o]
      put (Writer.u16 slot)
      put (Writer.i16 amount)
  | ret slot =>
    if slot.toNat < 256 then do
      put [o]
      put [slot.toUInt8]
    else do
      put [widePrefixByte]
      put [o]
      put (Writer.u16 slot)
  | branch _ target => do
    put [o]
    putNarrow target
  | jump kind target =>
    if widened then do
      put [(Opcode.wideJump kind).byte]
      putWide target
    else do
      put [o]
      putNarrow target
  | wideJump _ target => do
    put [o]
    putWide target
  | tableSwitch default low cases =>
    let high := low.toInt + cases.length - 1
    if cases.isEmpty then throw (.malformedCode offset .noCases)
    else do
      put [o]
      put padding
      putWide default
      put (Writer.i32 low)
      if high > 2147483647 then throw (.malformedCode offset (.highCaseOverflow high))
      else do
        put (Writer.i32 (Int32.ofInt high))
        cases.forM putWide
  | lookupSwitch default cases =>
    let cases := sortCases cases
    match repeatedKey? cases with
    | some key => throw (.malformedCode offset (.repeatedKey key))
    | none => do
      put [o]
      put padding
      putWide default
      put (BigEndian.pack 4 cases.length)
      cases.forM fun (key, target) => do
        put (Writer.i32 key)
        putWide target
  | invokeInterface index count => do
    put [o]
    put index.write
    put [count]
    put [0]
  | invokeDynamic index => do
    put [o]
    put index.write
    put [0, 0]
  | newArray element => do
    put [o]
    put [element.arrayCode]
  | multiNewArray index dimensions => do
    put [o]
    put index.write
    put [dimensions]

end Instruction

namespace Layout

/-- Write a placed instruction. -/
def emitRow (l : Layout) (row : (Nat × Placed) × Instruction Handle) : EmitM Unit :=
  row.2.emit row.1.1 row.1.2.widened fun target =>
    match l.offsetOf? target with
    | some there => .ok (there - row.1.1 : Int)
    | none => .error (.staleHandle target)

end Layout

/-- Write the sequence as its layout `l` places it. -/
def InstructionSeq.emitIn (s : InstructionSeq) (l : Layout) : EmitM Unit :=
  if l.codeLength > maxCodeLength then throw (.codeTooLong l.codeLength)
  else (l.zip s).forM l.emitRow

end Classfile
