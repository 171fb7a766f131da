import Classfile.Annotation.Uses
import Classfile.Attribute.Payload
import Classfile.Code.Decoding
import Classfile.Code.Layout
import Classfile.Draft.Basic
import Classfile.Image.Member

/-!
Methods that can be edited. The tables of a method refer to its instructions by handle; they become
offsets when the method is built.
-/
namespace Classfile

/-- The instructions from `first` to `last`, both included, are guarded by the handler. Without a
class it catches everything. -/
structure GuardedRange where
  first : Handle
  last : Handle
  handler : Handle
  catchType : Option ConstantIndex
  deriving DecidableEq, Repr

/-- The variable in a slot has a value from `first` to `last`, both included. A descriptor or a
generic signature describes it. -/
structure VariableScope where
  first : Handle
  last : Handle
  name : ConstantIndex
  descriptor : ConstantIndex
  slot : UInt16
  deriving DecidableEq, Repr

structure MethodDraft where
  flags : AccessFlags .method
  name : String
  descriptor : MethodDescriptor
  /-- The name of the class that declares the method. -/
  owner : String
  instructions : InstructionSeq
  maxStack : UInt16
  maxLocals : UInt16
  handlers : List GuardedRange
  lines : Array (Handle × UInt16)
  /-- Scopes of variables that descriptors describe. -/
  scopes : List VariableScope
  /-- Scopes of variables that generic signatures describe. -/
  typeScopes : List VariableScope
  exceptions : List ConstantIndex
  annotations : List AnnotationUse
  parameterAnnotations : List (List AnnotationUse)
  /-- The attributes of the method that are not modelled above. -/
  attributes : List Attribute
  /-- The attributes of its code that are not modelled above. -/
  codeAttributes : List Attribute

namespace MethodDraft

/-- A new method without code. -/
def make (flags : AccessFlags .method) (name descriptor owner : String) :
    Except DescriptorError MethodDraft := do
  return ⟨flags, name, ← MethodDescriptor.parse descriptor, owner, .empty, 0, 0, [], #[], [], [],
    [], [], [], [], []⟩

/-- The bit that is set for a method without a receiver. -/
def staticBit : UInt16 := 0x0008

def isStatic (d : MethodDraft) : Bool := d.flags.contains staticBit

/-! ### Editing -/

def checkLive (d : MethodDraft) (handles : List Handle) : Except Fault Unit :=
  handles.forM d.instructions.checkLive

def stripLines (d : MethodDraft) : MethodDraft := { d with lines := #[] }

def stripScopes (d : MethodDraft) : MethodDraft := { d with scopes := [], typeScopes := [] }

def addAnnotation (d : MethodDraft) (u : AnnotationUse) : MethodDraft :=
  { d with annotations := d.annotations ++ [u] }

/-- A range without the instruction `gone`, whose neighbours were `prev` and `next`. Nothing is left
of a range that held no other instruction. -/
def shrink (gone : Handle) (prev next : Option Handle) (first last : Handle) :
    Option (Handle × Handle) :=
  if first = gone ∧ last = gone then none
  else some (if first = gone then next.getD first else first,
    if last = gone then prev.getD last else last)

/-- The line numbers when the instruction `gone` has gone. Its line moves to the next instruction,
unless that one has a line. -/
def moveLines (gone : Handle) (next : Option Handle) (lines : List (Handle × UInt16)) :
    List (Handle × UInt16) :=
  match next with
  | none => lines.filter fun entry => entry.1 ≠ gone
  | some next =>
    if lines.any fun entry => entry.1 = next then lines.filter fun entry => entry.1 ≠ gone
    else
      -- of several lines of the instruction only the first one moves
      match lines.findIdx? fun entry => entry.1 = gone with
      | none => lines
      | some position =>
        (lines.zipIdx.filter fun (entry, i) => entry.1 ≠ gone ∨ i = position).map fun (entry, _) =>
          if entry.1 = gone then (next, entry.2) else entry

/-- How many local variables the parameters and the instructions use. -/
def localsUsed (d : MethodDraft) : Nat :=
  (d.instructions.toList.filterMap fun (_, i) => i.localVariable?).foldl
    (fun most (slot, width) => max most (slot.toNat + width))
    (d.descriptor.parameterLength (!d.isStatic))

/-- Make room for every local variable that is used, as far as there can be. -/
def computeMaxLocals (d : MethodDraft) : MethodDraft :=
  { d with maxLocals := UInt16.ofNat (min d.localsUsed 65535) }

end MethodDraft

/-- Computations that edit a method. -/
abbrev MethodM := DraftM MethodDraft

namespace MethodM

open DraftM

variable {α : Type}

def checkLive (handles : List Handle) : MethodM Unit := ask fun d _ => d.checkLive handles

def addHandler (range : GuardedRange) : MethodM Unit := do
  checkLive [range.first, range.last, range.handler]
  change fun d => { d with handlers := d.handlers ++ [range] }

/-- From the instruction on the code was compiled from the line. -/
def addLine (h : Handle) (line : UInt16) : MethodM Unit := do
  checkLive [h]
  change fun d => { d with lines := d.lines.push (h, line) }

def addScope (name descriptor : String) (slot : UInt16) (first last : Handle) : MethodM Unit := do
  checkLive [first, last]
  let name ← onPool (PoolM.addText name)
  let descriptor ← onPool (PoolM.addText descriptor)
  change fun d => { d with scopes := d.scopes ++ [⟨first, last, name, descriptor, slot⟩] }

/-- Declare a checked exception, unless it is declared already. -/
def addException (type : String) : MethodM Unit := do
  let type ← onPool (PoolM.addTypeName type)
  change fun d =>
    if d.exceptions.contains type then d else { d with exceptions := d.exceptions ++ [type] }

/-- Annotate a parameter. The receiver does not count as one. -/
def addParameterAnnotation (parameter : Nat) (u : AnnotationUse) : MethodM Unit := do
  let d ← draft
  let count := d.descriptor.parameters.length
  if count ≤ parameter then
    throw (.missing (.parameter d.owner d.name parameter count))
  change fun d => { d with parameterAnnotations :=
    d.parameterAnnotations ++ List.replicate (count - d.parameterAnnotations.length) [] }
  change fun d => { d with parameterAnnotations :=
    d.parameterAnnotations.modify parameter (· ++ [u]) }

def addAttribute [Payload α] (payload : α) : MethodM Unit := do
  let a ← onPool (PoolM.addAttribute payload)
  change fun d => { d with attributes := d.attributes ++ [a] }

def onInstructions (x : InstructionSeq → Except Fault (α × InstructionSeq)) : MethodM α := do
  let (a, instructions) ← ask fun d _ => x d.instructions
  change fun d => { d with instructions }
  return a

/-- Take an instruction out. The tables of the method are kept in order; an instruction at which a
handler begins cannot go. -/
def removeInstruction (h : Handle) : MethodM (Instruction Handle) := do
  let d ← draft
  if d.handlers.any fun range => range.handler = h then throw (.stillTargeted [h])
  let next := d.instructions.next? h
  let prev := d.instructions.prev? h
  let removed ← onInstructions fun s => s.remove h
  change fun d => { d with lines := (MethodDraft.moveLines h next d.lines.toList).toArray }
  change fun d => { d with handlers := d.handlers.filterMap fun range =>
    (MethodDraft.shrink h prev next range.first range.last).map fun (first, last) =>
      { range with first, last } }
  let narrow (scopes : List VariableScope) : List VariableScope := scopes.filterMap fun scope =>
    (MethodDraft.shrink h prev next scope.first scope.last).map fun (first, last) =>
      { scope with first, last }
  change fun d => { d with scopes := narrow d.scopes }
  change fun d => { d with typeScopes := narrow d.typeScopes }
  return removed

end MethodM

namespace MethodDraft

/-! ### Building -/

/-- The offset of an instruction. -/
def startOffset (l : Layout) (h : Handle) : Except Fault UInt16 :=
  match l.offsetOf? h with
  | some offset => .ok (UInt16.ofNat offset)
  | none => .error (.staleHandle h)

/-- The offset right behind an instruction. -/
def stopOffset (l : Layout) (h : Handle) : Except Fault UInt16 :=
  match l.endOf? h with
  | some offset => .ok (UInt16.ofNat offset)
  | none => .error (.staleHandle h)

def storedHandler (l : Layout) (range : GuardedRange) : Except Fault ExceptionHandler := do
  return ⟨← startOffset l range.first, ← stopOffset l range.last, ← startOffset l range.handler,
    range.catchType⟩

def storedLine (l : Layout) (line : Handle × UInt16) : Except Fault LineNumber := do
  return ⟨← startOffset l line.1, line.2⟩

/-- A scope that ends before it begins has no length. -/
def storedScope (l : Layout) (scope : VariableScope) : Except Fault VariableRange := do
  let start ← startOffset l scope.first
  let stop ← stopOffset l scope.last
  return ⟨start, UInt16.ofNat (stop.toNat - start.toNat), scope.name, scope.descriptor, scope.slot⟩

/-- An attribute with a table, if the table has entries. -/
def addTable {α β : Type} [Payload β] (make : List α → β) (entries : Except Fault (List α)) :
    PoolM (List Attribute) := do
  match ← PoolM.ask fun _ => entries with
  | [] => return []
  | entries => return [← PoolM.addAttribute (make entries)]

def buildCode (d : MethodDraft) : PoolM CodeBody := do
  let l := d.instructions.layout
  let code ← PoolM.ask fun _ => d.instructions.encodeIn l
  let handlers ← PoolM.ask fun _ => d.handlers.mapM (storedHandler l)
  let lines ← addTable LineNumberTable.mk (d.lines.toList.mapM (storedLine l))
  let scopes ← addTable LocalVariableTable.mk (d.scopes.mapM (storedScope l))
  let typeScopes ← addTable LocalVariableTypeTable.mk (d.typeScopes.mapM (storedScope l))
  PoolM.ask fun pool => d.codeAttributes.forM fun a => discard (pool.attributeName a)
  return ⟨d.maxStack, d.maxLocals, code, handlers,
    lines ++ scopes ++ typeScopes ++ d.codeAttributes⟩

/-- The method as it is stored. What it needs is added to the pool. -/
def build (d : MethodDraft) : PoolM Method := do
  let name ← PoolM.addText d.name
  let descriptor ← PoolM.addText d.descriptor.describe
  let code ←
    if d.instructions.isEmpty then pure []
    else do pure [← PoolM.addAttribute (← d.buildCode)]
  let exceptions ←
    if d.exceptions.isEmpty then pure []
    else do pure [← PoolM.addAttribute (Exceptions.mk d.exceptions)]
  let annotations ← PoolM.addAnnotations d.annotations
  let parameterAnnotations ← PoolM.addParameterAnnotations d.parameterAnnotations
  return ⟨d.flags, name, descriptor,
    code ++ exceptions ++ d.attributes ++ annotations ++ parameterAnnotations⟩

/-! ### Wrapping -/

/-- An offset that has to be where an instruction starts. -/
def boundary (d : MethodDraft) (code : DecodedCode) (place : Boundary) (pc : UInt16) :
    Except Fault Handle :=
  match code.handleAt? pc.toNat with
  | some h => .ok h
  | none => .error (.malformedClass (.offBoundary place pc d.owner d.name))

/-- The first and the last instruction of a range of offsets, which has to begin and end where
instructions do and may not be empty. -/
def range (d : MethodDraft) (code : DecodedCode) (length : Nat) (place : Boundary)
    (start : UInt16) (stop : Nat) : Except Fault (Handle × Handle) := do
  let first ← d.boundary code place start
  let onBoundary := stop = length || (code.handleAt? stop).isSome
  let last := if onBoundary && start.toNat < stop then code.handleBefore? stop else none
  match last with
  | some last => return (first, last)
  | none =>
    throw (.malformedClass (.offBoundary place (UInt16.ofNat stop) d.owner d.name))

def wrapHandler (pool : ConstantPool) (d : MethodDraft) (code : DecodedCode) (length : Nat)
    (h : ExceptionHandler) : Except Fault GuardedRange := do
  let (first, last) ← d.range code length .handlerRange h.start h.stop.toNat
  let handler ← d.boundary code .handler h.handler
  let catchType ← h.catchType.mapM (pool.checked .typeName)
  return ⟨first, last, handler, catchType⟩

def wrapLine (d : MethodDraft) (code : DecodedCode) (line : LineNumber) :
    Except Fault (Handle × UInt16) := do
  return (← d.boundary code .lineNumber line.start, line.line)

/-- A range of no length is dropped. -/
def wrapScope (pool : ConstantPool) (d : MethodDraft) (code : DecodedCode) (length : Nat)
    (r : VariableRange) : Except Fault (Option VariableScope) := do
  if r.length = 0 then return none
  let (first, last) ← d.range code length .variableRange r.start (r.start.toNat + r.length.toNat)
  discard (pool.text r.name)
  discard (pool.text r.descriptor)
  return some ⟨first, last, r.name, r.descriptor, r.slot⟩

def wrapScopes (pool : ConstantPool) (d : MethodDraft) (code : DecodedCode) (length : Nat)
    (ranges : List VariableRange) : Except Fault (List VariableScope) := do
  return (← ranges.mapM (wrapScope pool d code length)).filterMap id

/-- Take in one attribute of stored code. -/
def absorbCode (pool : ConstantPool) (code : DecodedCode) (length : Nat) (d : MethodDraft)
    (a : Attribute) : Except Fault MethodDraft := do
  if let some p ← pool.payload? LineNumberTable a then
    return { d with lines := d.lines ++ (← p.lines.mapM (wrapLine d code)) }
  else if let some p ← pool.payload? LocalVariableTable a then
    return { d with scopes := d.scopes ++ (← wrapScopes pool d code length p.ranges) }
  else if let some p ← pool.payload? LocalVariableTypeTable a then
    return { d with typeScopes := d.typeScopes ++ (← wrapScopes pool d code length p.ranges) }
  else return { d with codeAttributes := d.codeAttributes ++ [a] }

/-- Take in stored code, in the place of what code there was. -/
def wrapCode (pool : ConstantPool) (d : MethodDraft) (body : CodeBody) :
    Except Fault MethodDraft := do
  let code ← decodeCode pool body.code
  let length := body.code.length
  let handlers ← body.handlers.mapM (wrapHandler pool d code length)
  let d := { d with
    instructions := code.instructions, maxStack := body.maxStack, maxLocals := body.maxLocals
    handlers, lines := #[], scopes := [], typeScopes := [], codeAttributes := [] }
  body.attributes.foldlM (absorbCode pool code length) d

/-- Take in one attribute of a stored method. -/
def absorb (pool : ConstantPool) (d : MethodDraft) (a : Attribute) : Except Fault MethodDraft := do
  let name ← pool.attributeName a
  if let some body ← pool.payload? CodeBody a then
    d.wrapCode pool body
  else if let some p ← pool.payload? Exceptions a then
    return { d with exceptions := d.exceptions ++ (← p.types.mapM (pool.checked .typeName)) }
  else if isAnnotationAttribute name then return d
  else return { d with attributes := d.attributes ++ [a] }

/-- The draft of a stored method, whose indices have to fit the pool. -/
def ofMethod (pool : ConstantPool) (owner : String) (m : Method) : Except Fault MethodDraft := do
  let name ← pool.text m.name
  let descriptor ← pool.text m.descriptor
  match make m.flags name descriptor owner with
  | .error _ => throw (.malformedClass (.badMethodDescriptor name descriptor))
  | .ok d =>
    let d ← m.attributes.foldlM (absorb pool) d
    let annotations ← pool.annotations m.attributes
    let parameterAnnotations ← pool.parameterAnnotations m.attributes
    return { d with annotations, parameterAnnotations }

end MethodDraft

end Classfile
