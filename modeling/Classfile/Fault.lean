import Classfile.Code.Handle
import Classfile.Descriptor.Parser

/-! Everything that can go wrong with a class, with its cause. -/
namespace Classfile

/-- A place in the tables of a method that has to name the start of an instruction. -/
inductive Boundary
  | handlerRange
  | handler
  | lineNumber
  | variableRange
  deriving DecidableEq, Repr

def Boundary.name : Boundary → String
  | handlerRange => "handler range"
  | handler => "handler"
  | lineNumber => "line number"
  | variableRange => "local variable range"

/-- What makes a class inconsistent. -/
inductive ClassFlaw
  | poolTooLarge
  | truncated
  | unreadable (cause : FormatError)
  | trailing (count : Nat)
  | badAttribute (name : String) (cause : FormatError)
  | trailingInAttribute (name : String) (count : Nat)
  | badMethodDescriptor (name descriptor : String)
  | badFieldDescriptor (name descriptor : String)
  | offBoundary (place : Boundary) (pc : UInt16) (owner method : String)
  deriving DecidableEq, Repr

def ClassFlaw.message : ClassFlaw → String
  | poolTooLarge => "constant pool has more than 65535 slots"
  | truncated => "truncated class file"
  | unreadable cause => cause.message
  | trailing count => s!"{count} trailing bytes after class file"
  | badAttribute name cause => s!"bad {name} attribute: " ++ cause.message
  | trailingInAttribute name count => s!"{count} trailing bytes in {name} attribute"
  | badMethodDescriptor name descriptor =>
    "bad descriptor " ++ Quoted.string descriptor ++ s!" for {name}"
  | badFieldDescriptor name descriptor =>
    "bad descriptor " ++ Quoted.string descriptor ++ s!" for field {name}"
  | offBoundary place pc owner method =>
    place.name ++ s!" {pc} in {owner}.{method} is not an instruction boundary"

/-- What keeps code from being read or written. -/
inductive CodeFlaw
  | truncatedInstruction
  | offInstruction (target : Int)
  | noCases
  | highCaseOverflow (high : Int)
  | invertedBounds (low high : Int32)
  | truncatedCases
  | badPairCount (count : Int32)
  | repeatedKey (key : Int32)
  | badArrayType (code : UInt8)
  | unknownOpcode (byte : UInt8)
  | notWidenable (byte : UInt8)
  deriving DecidableEq, Repr

def CodeFlaw.message : CodeFlaw → String
  | truncatedInstruction => "truncated instruction"
  | offInstruction target => s!"jump target {target} is not the start of an instruction"
  | noCases => "tableswitch has no cases"
  | highCaseOverflow high => s!"tableswitch high value {high} overflows"
  | invertedBounds low high => s!"tableswitch low {low} is greater than high {high}"
  | truncatedCases => "truncated tableswitch"
  | badPairCount count => s!"bad lookupswitch pair count {count}"
  | repeatedKey key => s!"lookupswitch has key {key} twice"
  | badArrayType code => s!"bad newarray type {code}"
  | unknownOpcode byte => "unknown opcode 0x" ++ Hex.byte byte
  | notWidenable byte => "opcode 0x" ++ Hex.byte byte ++ " cannot be wide"

/-- Something asked for that is not there. -/
inductive Missing
  | method (owner name descriptor : String)
  | field (owner name descriptor : String)
  | parameter (owner name : String) (index count : Nat)
  deriving DecidableEq, Repr

def Missing.message : Missing → String
  | method owner name descriptor => s!"method {owner}.{name}:{descriptor}"
  | field owner name descriptor => s!"field {owner}.{name}:{descriptor}"
  | parameter owner name index count =>
    s!"parameter {index} of {owner}.{name} (which has {count} parameters)"

inductive Fault
  /-- The pool has no room for the constant. -/
  | poolOverflow (constant : Constant) (extent : Nat)
  /-- There is no constant with the index. -/
  | noConstant (index : ConstantIndex)
  /-- The constant with the index cannot play the role. -/
  | wrongConstant (index : ConstantIndex) (role : Role)
  /-- A branch has no encoding for a jump that far. -/
  | branchTooFar (offset : Nat) (displacement : Int)
  /-- An instruction cannot go while these refer to it. -/
  | stillTargeted (sources : List Handle)
  /-- The handle is not of an instruction in the sequence. -/
  | staleHandle (handle : Handle)
  | codeTooLong (length : Nat)
  | malformedClass (flaw : ClassFlaw)
  | malformedCode (offset : Nat) (flaw : CodeFlaw)
  /-- A field of the type cannot begin with the constant. -/
  | wrongInitialValue (type : FieldType) (constant : Constant)
  | missing (what : Missing)
  | format (cause : FormatError)
  | descriptor (cause : DescriptorError)
  deriving DecidableEq, Repr

def Fault.message : Fault → String
  | poolOverflow constant extent =>
    "constant pool overflow adding " ++ constant.spell ++ s!" at offset {extent}"
  | noConstant index => "invalid constant index " ++ index.describe
  | wrongConstant index role => "constant " ++ index.describe ++ " is not a " ++ role.name
  | branchTooFar offset displacement =>
    s!"branch at offset {offset} cannot encode displacement {displacement}"
  | stillTargeted sources =>
    s!"instruction is still targeted by {sources.length} instruction(s)"
  | staleHandle handle => "stale instruction handle " ++ handle.spell
  | codeTooLong length => s!"method code is too long ({length} bytes)"
  | malformedClass flaw => "malformed class: " ++ flaw.message
  | malformedCode offset flaw => s!"malformed code at offset {offset}: " ++ flaw.message
  | wrongInitialValue type constant =>
    "constant " ++ constant.spell ++ " cannot initialize a field of type " ++ type.describe
  | missing what => "missing member " ++ what.message
  | format cause => cause.message
  | descriptor cause => cause.message

/-- A failure of the format is a fault of its own. -/
def Fault.ofFormat {α : Type} : Except FormatError α → Except Fault α
  | .ok a => .ok a
  | .error e => .error (.format e)

end Classfile
