import Classfile.Binary.Writer
import Classfile.Code.Instruction

/-! Instructions as bytes, each in the shortest form that holds its operands. -/
namespace Classfile

/-- The byte before an opcode whose operands are twice as wide as usual. -/
def widePrefixByte : UInt8 := 0xc4

/-- The first of the bytes that load one of the first four variables of each type. -/
def shortLoadByte : UInt8 := 0x1a

/-- The first of the bytes that store one of the first four variables of each type. -/
def shortStoreByte : UInt8 := 0x3b

/-- The byte that loads a constant whose index takes two bytes. -/
def longConstantByte : UInt8 := 0x13

namespace Instruction

variable {τ : Type}

/-- A jump from the instruction at `offset`, in two bytes. -/
def narrowJump (offset : Nat) (displacement : τ → Except Fault Int) (target : τ) :
    Except Fault (List UInt8) := do
  let d ← displacement target
  if -32768 ≤ d ∧ d ≤ 32767 then return Writer.i16 (Int16.ofInt d)
  else throw (.branchTooFar offset d)

/-- A jump from the instruction at `offset`, in four bytes. -/
def wideJumpBytes (offset : Nat) (displacement : τ → Except Fault Int) (target : τ) :
    Except Fault (List UInt8) := do
  let d ← displacement target
  if -2147483648 ≤ d ∧ d ≤ 2147483647 then return Writer.i32 (Int32.ofInt d)
  else throw (.branchTooFar offset d)

/-- Loading or storing a variable: a byte of its own for each of the first four, else the number of
the variable in one byte or in two. -/
def variableBytes (short normal : UInt8) (type : VariableType) (slot : UInt16) : List UInt8 :=
  if slot.toNat < 4 then [short + 4 * type.rank + slot.toUInt8]
  else if slot.toNat < 256 then [normal, slot.toUInt8]
  else widePrefixByte :: normal :: Writer.u16 slot

/-- The cases of a lookup switch in the order of their keys. -/
def sortCases (cases : List (Int32 × τ)) : List (Int32 × τ) :=
  cases.mergeSort fun a b => decide (a.1 ≤ b.1)

/-- The first key that is followed by itself. -/
def repeatedKey? : List (Int32 × τ) → Option Int32
  | a :: b :: rest => if a.1 = b.1 then some a.1 else repeatedKey? (b :: rest)
  | _ => none

/-- The bytes of the instruction at `offset`. A jump takes its wide form if it is widened;
`displacement` tells how far away a target is. -/
def bytes (offset : Nat) (widened : Bool) (displacement : τ → Except Fault Int)
    (i : Instruction τ) : Except Fault (List UInt8) :=
  let o := i.opcode.byte
  let narrow := narrowJump offset displacement
  let wide := wideJumpBytes offset displacement
  let padding := List.replicate (switchPadding offset) (0 : UInt8)
  match i with
  | simple _ => .ok [o]
  | pushByte value => .ok (o :: Writer.i8 value)
  | pushShort value => .ok (o :: Writer.i16 value)
  | constant index =>
    if index.value.toNat < 256 then .ok [o, index.value.toUInt8]
    else .ok (longConstantByte :: index.write)
  | wideConstant index | field _ index | invoke _ index | typeOp _ index => .ok (o :: index.write)
  | load type slot => .ok (variableBytes shortLoadByte o type slot)
  | store type slot => .ok (variableBytes shortStoreByte o type slot)
  | increment slot amount =>
    if slot.toNat < 256 ∧ -128 ≤ amount.toInt ∧ amount.toInt ≤ 127 then
      .ok [o, slot.toUInt8, amount.toInt8.toUInt8]
    else .ok (widePrefixByte :: o :: (Writer.u16 slot ++ Writer.i16 amount))
  | ret slot =>
    if slot.toNat < 256 then .ok [o, slot.toUInt8]
    else .ok (widePrefixByte :: o :: Writer.u16 slot)
  | branch _ target => do return o :: (← narrow target)
  | jump kind target =>
    if widened then do return (Opcode.wideJump kind).byte :: (← wide target)
    else do return o :: (← narrow target)
  | wideJump _ target => do return o :: (← wide target)
  | tableSwitch default low cases => do
    if cases.isEmpty then throw (.malformedCode offset .noCases)
    let default ← wide default
    let high := low.toInt + cases.length - 1
    if high > 2147483647 then throw (.malformedCode offset (.highCaseOverflow high))
    let cases ← cases.mapM wide
    return o :: (padding ++ default ++ Writer.i32 low ++ Writer.i32 (Int32.ofInt high) ++
      cases.flatten)
  | lookupSwitch default cases => do
    let cases := sortCases cases
    if let some key := repeatedKey? cases then throw (.malformedCode offset (.repeatedKey key))
    let default ← wide default
    let pairs ← cases.mapM fun (key, target) => do return Writer.i32 key ++ (← wide target)
    return o :: (padding ++ default ++ BigEndian.pack 4 cases.length ++ pairs.flatten)
  | invokeInterface index count => .ok (o :: (index.write ++ [count, 0]))
  | invokeDynamic index => .ok (o :: (index.write ++ [0, 0]))
  | newArray element => .ok [o, element.arrayCode]
  | multiNewArray index dimensions => .ok (o :: (index.write ++ [dimensions]))

end Instruction

end Classfile
