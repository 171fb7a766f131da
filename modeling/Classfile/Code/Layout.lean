import Classfile.Code.Encoding
import Classfile.Code.Sequence
import Classfile.Text.Lines
import Std.Data.HashSet

/-!
Laying out a sequence of instructions: where each of them starts when it is written as bytes. A jump
that its two bytes cannot express is widened. Widening moves what follows, which can put other jumps
out of reach, so the layout is made anew until no jump has to be widened any more. A jump that was
widened once stays so, and there are only so many jumps.
-/
namespace Classfile

/-- An instruction in a layout. -/
structure Placed where
  handle : Handle
  width : Nat
  widened : Bool
  deriving DecidableEq, Repr

instance : Width Placed := ⟨Placed.width⟩

structure Layout where
  table : WidthTable Placed
  offsets : Std.HashMap Handle Nat

/-- The longest code that a method can have. -/
def maxCodeLength : Nat := 65535

namespace Layout

/-- The layout in which exactly the given jumps are widened. -/
def widening (s : InstructionSeq) (wide : Std.HashSet Handle) : Layout :=
  s.items.foldl (fun l (h, i) =>
    let offset := l.table.extent
    let widened := wide.contains h
    let width := i.lengthAt offset + if widened then 2 else 0
    ⟨l.table.push ⟨h, width, widened⟩, l.offsets.insert h offset⟩)
    ⟨WidthTable.startingAt 0, ∅⟩

def offsetOf? (l : Layout) (h : Handle) : Option Nat := l.offsets[h]?

def handleAt? (l : Layout) (offset : Nat) : Option Handle :=
  (l.table.find? offset).map (·.handle)

def codeLength (l : Layout) : Nat := l.table.extent

/-- The placed instruction with a handle, and its offset. -/
def placed? (l : Layout) (h : Handle) : Option (Nat × Placed) := do
  let offset ← l.offsetOf? h
  let placed ← l.table.find? offset
  return (offset, placed)

def isWidened (l : Layout) (h : Handle) : Bool :=
  match l.placed? h with
  | some (_, placed) => placed.widened
  | none => false

/-- The offset right behind an instruction. -/
def endOf? (l : Layout) (h : Handle) : Option Nat := do
  let (offset, placed) ← l.placed? h
  return offset + placed.width

/-- The instructions together with their places. -/
def zip (l : Layout) (s : InstructionSeq) : List ((Nat × Placed) × Instruction Handle) :=
  (l.table.toList.zip s.toList).map fun (place, item) => (place, item.2)

/-- Is this a jump that has to be widened? -/
def isOversized (l : Layout) (offset : Nat) (placed : Placed) (i : Instruction Handle) : Bool :=
  match i with
  | .jump _ target =>
    match l.offsetOf? target with
    | some there =>
      let d : Int := there - offset
      !placed.widened && (d < -32768 || 32767 < d)
    | none => false
  | _ => false

/-- The jumps that have to be widened. -/
def oversized (l : Layout) (s : InstructionSeq) : List Handle :=
  (l.zip s).filterMap fun ((offset, placed), i) =>
    if l.isOversized offset placed i then some placed.handle else none

/-- Widen until no jump is oversized, at most `more` times. -/
def settle (s : InstructionSeq) : Nat → Std.HashSet Handle → Layout
  | 0, wide => widening s wide
  | more + 1, wide =>
    let l := widening s wide
    match l.oversized s with
    | [] => l
    | handles => settle s more (wide.insertMany handles)

end Layout

namespace Instruction

/-- Can the layout widen the instruction? -/
def isJump {τ : Type} : Instruction τ → Bool
  | jump .. => true
  | _ => false

end Instruction

namespace InstructionSeq

/-- The layout of a sequence. Every round of widening takes at least one jump that was not widened
before, so there are no more rounds than jumps. -/
def layout (s : InstructionSeq) : Layout :=
  Layout.settle s (s.items.countP fun item => item.2.isJump) ∅

/-- The bytes of the sequence in its layout `l`. -/
def encodeIn (s : InstructionSeq) (l : Layout) : Except Fault (List UInt8) := do
  if l.codeLength > maxCodeLength then throw (.codeTooLong l.codeLength)
  let pieces ← (l.zip s).mapM fun ((offset, placed), i) =>
    i.bytes offset placed.widened fun target =>
      match l.offsetOf? target with
      | some there => .ok (there - offset : Int)
      | none => .error (.staleHandle target)
  return pieces.flatten

def encode (s : InstructionSeq) : Except Fault (List UInt8) := s.encodeIn s.layout

/-- At least `width` characters, with blanks in front. -/
def padLeft (width : Nat) (text : String) : String :=
  String.ofList (List.replicate (width - text.length) ' ') ++ text

/-- The instructions in order, each with its offset and with offsets for targets, line by line. A
text of the pool that holds newlines makes an instruction take several lines. -/
def listing (s : InstructionSeq) (pool : ConstantPool) : List String :=
  let l := s.layout
  (l.zip s).flatMap fun ((offset, _), i) =>
    Lines.ofText <| padLeft 5 (toString offset) ++ ": " ++ i.display pool fun target =>
      match l.offsetOf? target with
      | some there => toString there
      | none => target.describe

end InstructionSeq

end Classfile
