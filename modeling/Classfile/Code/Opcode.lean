import Classfile.Descriptor.Basic

/-!
Opcodes. A short form that merely abbreviates another is no opcode of its own, and neither is the
byte that widens the next opcode's operands.
-/
namespace Classfile

/-- What an instruction is for. -/
inductive Family
  | load
  | store
  | localVariable
  | conditional
  | goto
  | subroutine
  | select
  | exit
  | field
  | invoke
  | arithmetic
  | conversion
  | array
  | stack
  | constantPush
  | allocation
  | typeCheck
  | monitor
  /-- For nothing that other instructions are for too. -/
  | other
  /-- For use inside a virtual machine only. -/
  | reserved
  deriving DecidableEq, Repr

/-- The type of a local variable that is loaded or stored. -/
inductive VariableType
  | int
  | long
  | float
  | double
  | reference
  deriving DecidableEq, Repr

namespace VariableType

def all : List VariableType := [int, long, float, double, reference]

/-- The place of the type in each group of opcodes that has one for every type. -/
def rank : VariableType → UInt8
  | int => 0
  | long => 1
  | float => 2
  | double => 3
  | reference => 4

def ofRank? (rank : UInt8) : Option VariableType := all.find? fun t => t.rank = rank

/-- The letter that mnemonics for the type begin with. -/
def letter : VariableType → String
  | int => "i"
  | long => "l"
  | float => "f"
  | double => "d"
  | reference => "a"

/-- How many local variables a value takes. -/
def width : VariableType → Nat
  | long | double => 2
  | _ => 1

end VariableType

/-- When a conditional branch is taken: by one number against zero, by two numbers, by two
references, or by whether a reference is null. -/
inductive Condition
  | eq | ne | lt | ge | gt | le
  | intEq | intNe | intLt | intGe | intGt | intLe
  | refEq | refNe
  | null | nonNull
  deriving DecidableEq, Repr

/-- An unconditional jump, or a jump into a subroutine. -/
inductive JumpKind
  | goto
  | subroutine
  deriving DecidableEq, Repr

inductive FieldAccess
  | getStatic
  | putStatic
  | getField
  | putField
  deriving DecidableEq, Repr

/-- How a method is chosen that is not called through an interface. -/
inductive InvokeMode
  | virtual
  | special
  | static
  deriving DecidableEq, Repr

/-- What is done with a class: make an object or an array of it, or cast or test an object. -/
inductive TypeOperation
  | make
  | makeArray
  | cast
  | test
  deriving DecidableEq, Repr

/-- Operations without operands. -/
inductive SimpleOp
  | nop | aconstNull | iconstM1 | iconst0 | iconst1 | iconst2 | iconst3 | iconst4 | iconst5
  | lconst0 | lconst1 | fconst0 | fconst1 | fconst2 | dconst0 | dconst1 | iaload | laload
  | faload | daload | aaload | baload | caload | saload | iastore | lastore | fastore | dastore
  | aastore | bastore | castore | sastore | pop | pop2 | dup | dupX1 | dupX2 | dup2 | dup2X1
  | dup2X2 | swap | iadd | ladd | fadd | dadd | isub | lsub | fsub | dsub | imul | lmul | fmul
  | dmul | idiv | ldiv | fdiv | ddiv | irem | lrem | frem | drem | ineg | lneg | fneg | dneg
  | ishl | lshl | ishr | lshr | iushr | lushr | iand | land | ior | lor | ixor | lxor | i2l | i2f
  | i2d | l2i | l2f | l2d | f2i | f2l | f2d | d2i | d2l | d2f | i2b | i2c | i2s | lcmp | fcmpl
  | fcmpg | dcmpl | dcmpg | ireturn | lreturn | freturn | dreturn | areturn | returnVoid
  | arraylength | athrow | monitorenter | monitorexit | breakpoint | impdep1 | impdep2
  deriving DecidableEq, Repr

/-- The byte, the mnemonic and the family of an operation. -/
structure OpcodeInfo where
  byte : UInt8
  mnemonic : String
  family : Family
  deriving DecidableEq, Repr

def SimpleOp.info : SimpleOp → OpcodeInfo
  | nop => ⟨0x00, "nop", .other⟩
  | aconstNull => ⟨0x01, "aconst_null", .constantPush⟩
  | iconstM1 => ⟨0x02, "iconst_m1", .constantPush⟩
  | iconst0 => ⟨0x03, "iconst_0", .constantPush⟩
  | iconst1 => ⟨0x04, "iconst_1", .constantPush⟩
  | iconst2 => ⟨0x05, "iconst_2", .constantPush⟩
  | iconst3 => ⟨0x06, "iconst_3", .constantPush⟩
  | iconst4 => ⟨0x07, "iconst_4", .constantPush⟩
  | iconst5 => ⟨0x08, "iconst_5", .constantPush⟩
  | lconst0 => ⟨0x09, "lconst_0", .constantPush⟩
  | lconst1 => ⟨0x0a, "lconst_1", .constantPush⟩
  | fconst0 => ⟨0x0b, "fconst_0", .constantPush⟩
  | fconst1 => ⟨0x0c, "fconst_1", .constantPush⟩
  | fconst2 => ⟨0x0d, "fconst_2", .constantPush⟩
  | dconst0 => ⟨0x0e, "dconst_0", .constantPush⟩
  | dconst1 => ⟨0x0f, "dconst_1", .constantPush⟩
  | iaload => ⟨0x2e, "iaload", .array⟩
  | laload => ⟨0x2f, "laload", .array⟩
  | faload => ⟨0x30, "faload", .array⟩
  | daload => ⟨0x31, "daload", .array⟩
  | aaload => ⟨0x32, "aaload", .array⟩
  | baload => ⟨0x33, "baload", .array⟩
  | caload => ⟨0x34, "caload", .array⟩
  | saload => ⟨0x35, "saload", .array⟩
  | iastore => ⟨0x4f, "iastore", .array⟩
  | lastore => ⟨0x50, "lastore", .array⟩
  | fastore => ⟨0x51, "fastore", .array⟩
  | dastore => ⟨0x52, "dastore", .array⟩
  | aastore => ⟨0x53, "aastore", .array⟩
  | bastore => ⟨0x54, "bastore", .array⟩
  | castore => ⟨0x55, "castore", .array⟩
  | sastore => ⟨0x56, "sastore", .array⟩
  | pop => ⟨0x57, "pop", .stack⟩
  | pop2 => ⟨0x58, "pop2", .stack⟩
  | dup => ⟨0x59, "dup", .stack⟩
  | dupX1 => ⟨0x5a, "dup_x1", .stack⟩
  | dupX2 => ⟨0x5b, "dup_x2", .stack⟩
  | dup2 => ⟨0x5c, "dup2", .stack⟩
  | dup2X1 => ⟨0x5d, "dup2_x1", .stack⟩
  | dup2X2 => ⟨0x5e, "dup2_x2", .stack⟩
  | swap => ⟨0x5f, "swap", .stack⟩
  | iadd => ⟨0x60, "iadd", .arithmetic⟩
  | ladd => ⟨0x61, "ladd", .arithmetic⟩
  | fadd => ⟨0x62, "fadd", .arithmetic⟩
  | dadd => ⟨0x63, "dadd", .arithmetic⟩
  | isub => ⟨0x64, "isub", .arithmetic⟩
  | lsub => ⟨0x65, "lsub", .arithmetic⟩
  | fsub => ⟨0x66, "fsub", .arithmetic⟩
  | dsub => ⟨0x67, "dsub", .arithmetic⟩
  | imul => ⟨0x68, "imul", .arithmetic⟩
  | lmul => ⟨0x69, "lmul", .arithmetic⟩
  | fmul => ⟨0x6a, "fmul", .arithmetic⟩
  | dmul => ⟨0x6b, "dmul", .arithmetic⟩
  | idiv => ⟨0x6c, "idiv", .arithmetic⟩
  | ldiv => ⟨0x6d, "ldiv", .arithmetic⟩
  | fdiv => ⟨0x6e, "fdiv", .arithmetic⟩
  | ddiv => ⟨0x6f, "ddiv", .arithmetic⟩
  | irem => ⟨0x70, "irem", .arithmetic⟩
  | lrem => ⟨0x71, "lrem", .arithmetic⟩
  | frem => ⟨0x72, "frem", .arithmetic⟩
  | drem => ⟨0x73, "drem", .arithmetic⟩
  | ineg => ⟨0x74, "ineg", .arithmetic⟩
  | lneg => ⟨0x75, "lneg", .arithmetic⟩
  | fneg => ⟨0x76, "fneg", .arithmetic⟩
  | dneg => ⟨0x77, "dneg", .arithmetic⟩
  | ishl => ⟨0x78, "ishl", .arithmetic⟩
  | lshl => ⟨0x79, "lshl", .arithmetic⟩
  | ishr => ⟨0x7a, "ishr", .arithmetic⟩
  | lshr => ⟨0x7b, "lshr", .arithmetic⟩
  | iushr => ⟨0x7c, "iushr", .arithmetic⟩
  | lushr => ⟨0x7d, "lushr", .arithmetic⟩
  | iand => ⟨0x7e, "iand", .arithmetic⟩
  | land => ⟨0x7f, "land", .arithmetic⟩
  | ior => ⟨0x80, "ior", .arithmetic⟩
  | lor => ⟨0x81, "lor", .arithmetic⟩
  | ixor => ⟨0x82, "ixor", .arithmetic⟩
  | lxor => ⟨0x83, "lxor", .arithmetic⟩
  | i2l => ⟨0x85, "i2l", .conversion⟩
  | i2f => ⟨0x86, "i2f", .conversion⟩
  | i2d => ⟨0x87, "i2d", .conversion⟩
  | l2i => ⟨0x88, "l2i", .conversion⟩
  | l2f => ⟨0x89, "l2f", .conversion⟩
  | l2d => ⟨0x8a, "l2d", .conversion⟩
  | f2i => ⟨0x8b, "f2i", .conversion⟩
  | f2l => ⟨0x8c, "f2l", .conversion⟩
  | f2d => ⟨0x8d, "f2d", .conversion⟩
  | d2i => ⟨0x8e, "d2i", .conversion⟩
  | d2l => ⟨0x8f, "d2l", .conversion⟩
  | d2f => ⟨0x90, "d2f", .conversion⟩
  | i2b => ⟨0x91, "i2b", .conversion⟩
  | i2c => ⟨0x92, "i2c", .conversion⟩
  | i2s => ⟨0x93, "i2s", .conversion⟩
  | lcmp => ⟨0x94, "lcmp", .arithmetic⟩
  | fcmpl => ⟨0x95, "fcmpl", .arithmetic⟩
  | fcmpg => ⟨0x96, "fcmpg", .arithmetic⟩
  | dcmpl => ⟨0x97, "dcmpl", .arithmetic⟩
  | dcmpg => ⟨0x98, "dcmpg", .arithmetic⟩
  | ireturn => ⟨0xac, "ireturn", .exit⟩
  | lreturn => ⟨0xad, "lreturn", .exit⟩
  | freturn => ⟨0xae, "freturn", .exit⟩
  | dreturn => ⟨0xaf, "dreturn", .exit⟩
  | areturn => ⟨0xb0, "areturn", .exit⟩
  | returnVoid => ⟨0xb1, "return", .exit⟩
  | arraylength => ⟨0xbe, "arraylength", .array⟩
  | athrow => ⟨0xbf, "athrow", .other⟩
  | monitorenter => ⟨0xc2, "monitorenter", .monitor⟩
  | monitorexit => ⟨0xc3, "monitorexit", .monitor⟩
  | breakpoint => ⟨0xca, "breakpoint", .reserved⟩
  | impdep1 => ⟨0xfe, "impdep1", .reserved⟩
  | impdep2 => ⟨0xff, "impdep2", .reserved⟩

inductive Opcode
  | simple (op : SimpleOp)
  | pushByte
  | pushShort
  | constant
  | wideConstant
  | load (type : VariableType)
  | store (type : VariableType)
  | increment
  | branch (condition : Condition)
  | jump (kind : JumpKind)
  | ret
  | tableSwitch
  | lookupSwitch
  | field (access : FieldAccess)
  | invoke (mode : InvokeMode)
  | invokeInterface
  | invokeDynamic
  | typeOp (operation : TypeOperation)
  | newArray
  | multiNewArray
  | wideJump (kind : JumpKind)
  deriving DecidableEq, Repr

namespace Condition

def byte : Condition → UInt8
  | eq => 0x99
  | ne => 0x9a
  | lt => 0x9b
  | ge => 0x9c
  | gt => 0x9d
  | le => 0x9e
  | intEq => 0x9f
  | intNe => 0xa0
  | intLt => 0xa1
  | intGe => 0xa2
  | intGt => 0xa3
  | intLe => 0xa4
  | refEq => 0xa5
  | refNe => 0xa6
  | null => 0xc6
  | nonNull => 0xc7

def mnemonic : Condition → String
  | eq => "ifeq"
  | ne => "ifne"
  | lt => "iflt"
  | ge => "ifge"
  | gt => "ifgt"
  | le => "ifle"
  | intEq => "if_icmpeq"
  | intNe => "if_icmpne"
  | intLt => "if_icmplt"
  | intGe => "if_icmpge"
  | intGt => "if_icmpgt"
  | intLe => "if_icmple"
  | refEq => "if_acmpeq"
  | refNe => "if_acmpne"
  | null => "ifnull"
  | nonNull => "ifnonnull"

end Condition

namespace Opcode

def info : Opcode → OpcodeInfo
  | simple op => op.info
  | pushByte => ⟨0x10, "bipush", .constantPush⟩
  | pushShort => ⟨0x11, "sipush", .constantPush⟩
  | constant => ⟨0x12, "ldc", .constantPush⟩
  | wideConstant => ⟨0x14, "ldc2_w", .constantPush⟩
  | load type => ⟨0x15 + type.rank, type.letter ++ "load", .load⟩
  | store type => ⟨0x36 + type.rank, type.letter ++ "store", .store⟩
  | increment => ⟨0x84, "iinc", .localVariable⟩
  | branch condition => ⟨condition.byte, condition.mnemonic, .conditional⟩
  | jump .goto => ⟨0xa7, "goto", .goto⟩
  | jump .subroutine => ⟨0xa8, "jsr", .subroutine⟩
  | ret => ⟨0xa9, "ret", .localVariable⟩
  | tableSwitch => ⟨0xaa, "tableswitch", .select⟩
  | lookupSwitch => ⟨0xab, "lookupswitch", .select⟩
  | field .getStatic => ⟨0xb2, "getstatic", .field⟩
  | field .putStatic => ⟨0xb3, "putstatic", .field⟩
  | field .getField => ⟨0xb4, "getfield", .field⟩
  | field .putField => ⟨0xb5, "putfield", .field⟩
  | invoke .virtual => ⟨0xb6, "invokevirtual", .invoke⟩
  | invoke .special => ⟨0xb7, "invokespecial", .invoke⟩
  | invoke .static => ⟨0xb8, "invokestatic", .invoke⟩
  | invokeInterface => ⟨0xb9, "invokeinterface", .invoke⟩
  | invokeDynamic => ⟨0xba, "invokedynamic", .invoke⟩
  | typeOp .make => ⟨0xbb, "new", .allocation⟩
  | newArray => ⟨0xbc, "newarray", .allocation⟩
  | typeOp .makeArray => ⟨0xbd, "anewarray", .allocation⟩
  | typeOp .cast => ⟨0xc0, "checkcast", .typeCheck⟩
  | typeOp .test => ⟨0xc1, "instanceof", .typeCheck⟩
  | multiNewArray => ⟨0xc5, "multianewarray", .allocation⟩
  | wideJump .goto => ⟨0xc8, "goto_w", .goto⟩
  | wideJump .subroutine => ⟨0xc9, "jsr_w", .subroutine⟩

def byte (o : Opcode) : UInt8 := o.info.byte
def mnemonic (o : Opcode) : String := o.info.mnemonic
def family (o : Opcode) : Family := o.info.family

/-- Every opcode, in the order of their bytes. -/
def all : List Opcode := [
  simple .nop, simple .aconstNull, simple .iconstM1, simple .iconst0, simple .iconst1,
  simple .iconst2, simple .iconst3, simple .iconst4, simple .iconst5, simple .lconst0,
  simple .lconst1, simple .fconst0, simple .fconst1, simple .fconst2, simple .dconst0,
  simple .dconst1, pushByte, pushShort, constant, wideConstant, load .int, load .long,
  load .float, load .double, load .reference, simple .iaload, simple .laload, simple .faload,
  simple .daload, simple .aaload, simple .baload, simple .caload, simple .saload, store .int,
  store .long, store .float, store .double, store .reference, simple .iastore, simple .lastore,
  simple .fastore, simple .dastore, simple .aastore, simple .bastore, simple .castore,
  simple .sastore, simple .pop, simple .pop2, simple .dup, simple .dupX1, simple .dupX2,
  simple .dup2, simple .dup2X1, simple .dup2X2, simple .swap, simple .iadd, simple .ladd,
  simple .fadd, simple .dadd, simple .isub, simple .lsub, simple .fsub, simple .dsub,
  simple .imul, simple .lmul, simple .fmul, simple .dmul, simple .idiv, simple .ldiv,
  simple .fdiv, simple .ddiv, simple .irem, simple .lrem, simple .frem, simple .drem,
  simple .ineg, simple .lneg, simple .fneg, simple .dneg, simple .ishl, simple .lshl,
  simple .ishr, simple .lshr, simple .iushr, simple .lushr, simple .iand, simple .land,
  simple .ior, simple .lor, simple .ixor, simple .lxor, increment, simple .i2l, simple .i2f,
  simple .i2d, simple .l2i, simple .l2f, simple .l2d, simple .f2i, simple .f2l, simple .f2d,
  simple .d2i, simple .d2l, simple .d2f, simple .i2b, simple .i2c, simple .i2s, simple .lcmp,
  simple .fcmpl, simple .fcmpg, simple .dcmpl, simple .dcmpg, branch .eq, branch .ne, branch .lt,
  branch .ge, branch .gt, branch .le, branch .intEq, branch .intNe, branch .intLt, branch .intGe,
  branch .intGt, branch .intLe, branch .refEq, branch .refNe, jump .goto, jump .subroutine, ret,
  tableSwitch, lookupSwitch, simple .ireturn, simple .lreturn, simple .freturn, simple .dreturn,
  simple .areturn, simple .returnVoid, field .getStatic, field .putStatic, field .getField,
  field .putField, invoke .virtual, invoke .special, invoke .static, invokeInterface,
  invokeDynamic, typeOp .make, newArray, typeOp .makeArray, simple .arraylength, simple .athrow,
  typeOp .cast, typeOp .test, simple .monitorenter, simple .monitorexit, multiNewArray,
  branch .null, branch .nonNull, wideJump .goto, wideJump .subroutine, simple .breakpoint,
  simple .impdep1, simple .impdep2]

def ofByte? (byte : UInt8) : Option Opcode := all.find? fun o => o.byte = byte
def ofMnemonic? (word : String) : Option Opcode := all.find? fun o => o.mnemonic = word

/-- The place of an opcode among all of them. -/
def rank (o : Opcode) : Nat := all.idxOf o

end Opcode

end Classfile
