import Classfile.Code.Opcode
import Classfile.Pool.Display

/-!
Instructions, with targets of any kind: offsets in code that has just been read, handles in code
that can be edited. The short and wide forms of an instruction are not told apart; the shortest one
that fits is chosen when code is laid out.
-/
namespace Classfile

/-- The default target of a switch is stored first, and then one target for each case. -/
inductive Instruction (τ : Type)
  | simple (op : SimpleOp)
  | pushByte (value : Int8)
  | pushShort (value : Int16)
  | constant (index : ConstantIndex)
  | wideConstant (index : ConstantIndex)
  | load (type : VariableType) (slot : UInt16)
  | store (type : VariableType) (slot : UInt16)
  | increment (slot : UInt16) (amount : Int16)
  | branch (condition : Condition) (target : τ)
  | jump (kind : JumpKind) (target : τ)
  | ret (slot : UInt16)
  | tableSwitch (default : τ) (low : Int32) (cases : List τ)
  | lookupSwitch (default : τ) (cases : List (Int32 × τ))
  | field (access : FieldAccess) (index : ConstantIndex)
  | invoke (mode : InvokeMode) (index : ConstantIndex)
  | invokeInterface (index : ConstantIndex) (count : UInt8)
  | invokeDynamic (index : ConstantIndex)
  | typeOp (operation : TypeOperation) (index : ConstantIndex)
  | newArray (element : BaseType)
  | multiNewArray (index : ConstantIndex) (dimensions : UInt8)
  | wideJump (kind : JumpKind) (target : τ)
  deriving DecidableEq, Repr

namespace Instruction

variable {τ σ : Type}

def opcode : Instruction τ → Opcode
  | simple op => .simple op
  | pushByte _ => .pushByte
  | pushShort _ => .pushShort
  | constant _ => .constant
  | wideConstant _ => .wideConstant
  | load type _ => .load type
  | store type _ => .store type
  | increment .. => .increment
  | branch condition _ => .branch condition
  | jump kind _ => .jump kind
  | ret _ => .ret
  | tableSwitch .. => .tableSwitch
  | lookupSwitch .. => .lookupSwitch
  | field access _ => .field access
  | invoke mode _ => .invoke mode
  | invokeInterface .. => .invokeInterface
  | invokeDynamic _ => .invokeDynamic
  | typeOp operation _ => .typeOp operation
  | newArray _ => .newArray
  | multiNewArray .. => .multiNewArray
  | wideJump kind _ => .wideJump kind

/-- Where the instruction may jump to. -/
def targets : Instruction τ → List τ
  | branch _ target | jump _ target | wideJump _ target => [target]
  | tableSwitch default _ cases => default :: cases
  | lookupSwitch default cases => default :: cases.map (·.2)
  | _ => []

def isBranch (i : Instruction τ) : Bool := !i.targets.isEmpty

/-- The same instruction with other targets. -/
def mapTargets (f : τ → σ) : Instruction τ → Instruction σ
  | branch condition target => branch condition (f target)
  | jump kind target => jump kind (f target)
  | wideJump kind target => wideJump kind (f target)
  | tableSwitch default low cases => tableSwitch (f default) low (cases.map f)
  | lookupSwitch default cases =>
    lookupSwitch (f default) (cases.map fun (key, target) => (key, f target))
  | simple op => simple op
  | pushByte value => pushByte value
  | pushShort value => pushShort value
  | constant index => constant index
  | wideConstant index => wideConstant index
  | load type slot => load type slot
  | store type slot => store type slot
  | increment slot amount => increment slot amount
  | ret slot => ret slot
  | field access index => field access index
  | invoke mode index => invoke mode index
  | invokeInterface index count => invokeInterface index count
  | invokeDynamic index => invokeDynamic index
  | typeOp operation index => typeOp operation index
  | newArray element => newArray element
  | multiNewArray index dimensions => multiNewArray index dimensions

/-- The same instruction with its targets resolved, in the order in which they are stored. -/
def resolve {ε : Type} (f : τ → Except ε σ) : Instruction τ → Except ε (Instruction σ)
  | branch condition target => do return branch condition (← f target)
  | jump kind target => do return jump kind (← f target)
  | wideJump kind target => do return wideJump kind (← f target)
  | tableSwitch default low cases => do
    return tableSwitch (← f default) low (← cases.mapM f)
  | lookupSwitch default cases => do
    return lookupSwitch (← f default) (← cases.mapM fun (key, target) => do
      return (key, ← f target))
  | simple op => .ok (simple op)
  | pushByte value => .ok (pushByte value)
  | pushShort value => .ok (pushShort value)
  | constant index => .ok (constant index)
  | wideConstant index => .ok (wideConstant index)
  | load type slot => .ok (load type slot)
  | store type slot => .ok (store type slot)
  | increment slot amount => .ok (increment slot amount)
  | ret slot => .ok (ret slot)
  | field access index => .ok (field access index)
  | invoke mode index => .ok (invoke mode index)
  | invokeInterface index count => .ok (invokeInterface index count)
  | invokeDynamic index => .ok (invokeDynamic index)
  | typeOp operation index => .ok (typeOp operation index)
  | newArray element => .ok (newArray element)
  | multiNewArray index dimensions => .ok (multiNewArray index dimensions)

/-- The same instruction with its first target replaced, if it has any. -/
def setTarget? (target : τ) : Instruction τ → Option (Instruction τ)
  | branch condition _ => some (branch condition target)
  | jump kind _ => some (jump kind target)
  | wideJump kind _ => some (wideJump kind target)
  | tableSwitch _ low cases => some (tableSwitch target low cases)
  | lookupSwitch _ cases => some (lookupSwitch target cases)
  | _ => none

/-- The constant that the instruction uses. -/
def constantIndex? : Instruction τ → Option ConstantIndex
  | constant index | wideConstant index | field _ index | invoke _ index
  | invokeInterface index _ | invokeDynamic index | typeOp _ index | multiNewArray index _ =>
    some index
  | _ => none

/-- The first local variable that the instruction uses, and how many it takes. -/
def localVariable? : Instruction τ → Option (UInt16 × Nat)
  | load type slot | store type slot => some (slot, type.width)
  | increment slot _ | ret slot => some (slot, 1)
  | _ => none

/-- The operands of a table switch begin at a multiple of four bytes from the start of the code. -/
def switchPadding (offset : Nat) : Nat := 3 - offset % 4

/-- How many bytes an instruction at `offset` takes, if its jump is not widened. -/
def lengthAt (offset : Nat) : Instruction τ → Nat
  | simple _ => 1
  | pushByte _ | newArray _ => 2
  | pushShort _ | wideConstant _ | branch .. | jump .. | field .. | invoke .. | typeOp .. => 3
  | constant index => if index.value.toNat < 256 then 2 else 3
  | load _ slot | store _ slot =>
    if slot.toNat < 4 then 1 else if slot.toNat < 256 then 2 else 4
  | ret slot => if slot.toNat < 256 then 2 else 4
  | increment slot amount =>
    if slot.toNat < 256 ∧ -128 ≤ amount.toInt ∧ amount.toInt ≤ 127 then 3 else 6
  | multiNewArray .. => 4
  | invokeInterface .. | invokeDynamic _ | wideJump .. => 5
  | tableSwitch _ _ cases => 1 + switchPadding offset + 4 * (3 + cases.length)
  | lookupSwitch _ cases => 1 + switchPadding offset + 8 * (1 + cases.length)

/-- The operands of an instruction for people to read; `spell` writes a target. -/
def operandTexts (pool : ConstantPool) (spell : τ → String) : Instruction τ → List String
  | simple _ => []
  | pushByte value => [toString value]
  | pushShort value => [toString value]
  | constant index | wideConstant index | field _ index | invoke _ index | invokeDynamic index
  | typeOp _ index => [pool.display index]
  | load _ slot | store _ slot | ret slot => [toString slot]
  | increment slot amount => [toString slot, toString amount]
  | branch _ target | jump _ target | wideJump _ target => [spell target]
  | tableSwitch default low cases =>
    (cases.zipIdx.map fun (target, i) => s!"{low.toInt + i}: " ++ spell target) ++
      ["default: " ++ spell default]
  | lookupSwitch default cases =>
    (cases.map fun (key, target) => s!"{key}: " ++ spell target) ++ ["default: " ++ spell default]
  | invokeInterface index count => [pool.display index, toString count]
  | newArray element => [element.keyword]
  | multiNewArray index dimensions => [pool.display index, toString dimensions]

/-- The mnemonic and the operands. -/
def display (pool : ConstantPool) (spell : τ → String) (i : Instruction τ) : String :=
  " ".intercalate (i.opcode.mnemonic :: i.operandTexts pool spell)

end Instruction

end Classfile
