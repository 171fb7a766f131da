import Classfile.Code.Instruction

/-!
Visiting instructions. For each instruction a visitor is told of everything that the instruction is,
from the most general to the most specific; the opcode comes last.
-/
namespace Classfile

/-- What a visitor can be told of, in the order of the telling. -/
inductive Hook
  | exceptionThrower
  | stackConsumer
  | stackProducer
  | unconditionalBranch
  | constantPoolInstruction
  | localVariableInstruction
  | loadInstruction
  | storeInstruction
  | branchInstruction
  | ifInstruction
  | gotoInstruction
  | jsrInstruction
  | select
  | returnInstruction
  | fieldOrMethod
  | fieldInstruction
  | invokeInstruction
  | arithmeticInstruction
  | conversionInstruction
  | arrayInstruction
  | stackInstruction
  | constantPushInstruction
  | allocationInstruction
  | typeCheckInstruction
  | monitorInstruction
  | opcode (o : Opcode)
  deriving DecidableEq, Repr

def Hook.name : Hook → String
  | exceptionThrower => "exception_thrower"
  | stackConsumer => "stack_consumer"
  | stackProducer => "stack_producer"
  | unconditionalBranch => "unconditional_branch"
  | constantPoolInstruction => "constant_pool_instruction"
  | localVariableInstruction => "local_variable_instruction"
  | loadInstruction => "load_instruction"
  | storeInstruction => "store_instruction"
  | branchInstruction => "branch_instruction"
  | ifInstruction => "if_instruction"
  | gotoInstruction => "goto_instruction"
  | jsrInstruction => "jsr_instruction"
  | select => "select"
  | returnInstruction => "return_instruction"
  | fieldOrMethod => "field_or_method"
  | fieldInstruction => "field_instruction"
  | invokeInstruction => "invoke_instruction"
  | arithmeticInstruction => "arithmetic_instruction"
  | conversionInstruction => "conversion_instruction"
  | arrayInstruction => "array_instruction"
  | stackInstruction => "stack_instruction"
  | constantPushInstruction => "constant_push_instruction"
  | allocationInstruction => "allocation_instruction"
  | typeCheckInstruction => "type_check_instruction"
  | monitorInstruction => "monitor_instruction"
  | opcode o => "opcode " ++ o.mnemonic

/-- The hooks of a family, the more general one first. -/
def Family.hooks : Family → List Hook
  | load => [.localVariableInstruction, .loadInstruction]
  | store => [.localVariableInstruction, .storeInstruction]
  | localVariable => [.localVariableInstruction]
  | conditional => [.branchInstruction, .ifInstruction]
  | goto => [.branchInstruction, .gotoInstruction]
  | subroutine => [.branchInstruction, .jsrInstruction]
  | select => [.branchInstruction, .select]
  | exit => [.returnInstruction]
  | field => [.fieldOrMethod, .fieldInstruction]
  | invoke => [.fieldOrMethod, .invokeInstruction]
  | arithmetic => [.arithmeticInstruction]
  | conversion => [.conversionInstruction]
  | array => [.arrayInstruction]
  | stack => [.stackInstruction]
  | constantPush => [.constantPushInstruction]
  | allocation => [.allocationInstruction]
  | typeCheck => [.typeCheckInstruction]
  | monitor => [.monitorInstruction]
  | other => []
  | reserved => []

/-- Does the operation put a value into an array? -/
def SimpleOp.isArrayStore : SimpleOp → Bool
  | iastore | lastore | fastore | dastore | aastore | bastore | castore | sastore => true
  | _ => false

namespace Opcode

/-- May running it throw an exception? -/
def isThrower (o : Opcode) : Bool :=
  match o with
  | simple .idiv | simple .ldiv | simple .irem | simple .lrem | simple .athrow | constant => true
  | _ =>
    match o.family with
    | .array | .exit | .field | .invoke | .allocation | .typeCheck | .monitor => true
    | _ => false

/-- Does it take values from the stack? -/
def isConsumer (o : Opcode) : Bool :=
  match o with
  | simple .athrow => true
  | simple .returnVoid | field .getStatic | typeOp .make => false
  | _ =>
    match o.family with
    | .store | .conditional | .select | .exit | .field | .invoke | .arithmetic | .conversion
    | .array | .stack | .allocation | .typeCheck | .monitor => true
    | _ => false

/-- Does it put values on the stack? -/
def isProducer (o : Opcode) : Bool :=
  match o with
  | simple .pop | simple .pop2 | field .putStatic | field .putField => false
  | simple op =>
    match op.info.family with
    | .array => !op.isArrayStore
    | .arithmetic | .conversion | .stack | .constantPush => true
    | _ => false
  | _ =>
    match o.family with
    | .load | .subroutine | .field | .invoke | .constantPush | .allocation | .typeCheck => true
    | _ => false

/-- Does control never go on to the next instruction? -/
def isUnconditional (o : Opcode) : Bool :=
  match o with
  | simple .athrow | ret => true
  | _ =>
    match o.family with
    | .goto | .exit => true
    | _ => false

end Opcode

namespace Instruction

variable {τ : Type}

/-- Everything that a visitor is told of an instruction. Of a reserved one it is told no more than
the opcode. -/
def hooks (i : Instruction τ) : List Hook :=
  let o := i.opcode
  if o.family = .reserved then [.opcode o]
  else
    (if o.isThrower then [.exceptionThrower] else []) ++
    (if o.isConsumer then [.stackConsumer] else []) ++
    (if o.isProducer then [.stackProducer] else []) ++
    (if o.isUnconditional then [.unconditionalBranch] else []) ++
    (if i.constantIndex?.isSome then [.constantPoolInstruction] else []) ++
    o.family.hooks ++ [.opcode o]

/-- Let a visitor see the instruction. The visitor is a state and what each hook makes of it. -/
def visit {ν : Type} (see : ν → Hook → Instruction τ → ν) (visitor : ν) (i : Instruction τ) : ν :=
  i.hooks.foldl (fun v hook => see v hook i) visitor

end Instruction

end Classfile
