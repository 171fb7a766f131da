import Classfile.LowerBound

/-!
Sequences whose elements have a width. An element is addressed by its offset: the offset of the
first element and the widths of the elements before it, summed. The constant pool and the layout of
code are addressed in this way.
-/
namespace Classfile

/-- One more than the largest offset, for an offset is a word of 64 bits. -/
def wordLimit : Nat := UInt64.size

/-- What becomes of a sum that is no word: the program ends there if it is checked, and otherwise
goes on with what is left of the sum. -/
inductive Overflow
  | stops
  | wraps
  deriving DecidableEq, Repr

/-- The sum of two words. -/
def Overflow.add (overflow : Overflow) (a b : Nat) : Option Nat :=
  if a + b < wordLimit then some (a + b)
  else match overflow with
    | .stops => none
    | .wraps => some ((a + b) % wordLimit)

/-- Elements that take up a number of slots. -/
class Width (α : Type) where
  width : α → Nat

/-- Elements with the offset of each, and the offset at which the next one will start. -/
structure WidthTable (α : Type) where
  entries : Array (Nat × α)
  extent : Nat

/-- What lies at an offset. -/
inductive Located (α : Type)
  /-- The element with this index starts there. -/
  | start (index : Nat) (element : α)
  /-- No element starts there, and the one with this index is the first to start later. -/
  | inside (index : Nat)
  /-- No element starts there or later. -/
  | beyond

namespace WidthTable

variable {α : Type}

/-- The empty table whose first element will start at `offset`. -/
def startingAt (offset : Nat) : WidthTable α := ⟨#[], offset⟩

def size (t : WidthTable α) : Nat := t.entries.size

def isEmpty (t : WidthTable α) : Bool := t.entries.isEmpty

/-- Add an element at the end, and give the offset at which it starts: that is the table's extent,
to which the width is added as words are. -/
def place [Width α] (overflow : Overflow) (a : α) : StateT (WidthTable α) Option Nat := fun t => do
  let extent ← overflow.add t.extent (Width.width a)
  return (t.extent, ⟨t.entries.push (t.extent, a), extent⟩)

/-- Add an element at the end where there is room for it, as there always is in a constant pool and
in code: the widths are summed as they are. -/
def push [Width α] (t : WidthTable α) (a : α) : WidthTable α :=
  ⟨t.entries.push (t.extent, a), t.extent + Width.width a⟩

def ofList [Width α] (offset : Nat) (elements : List α) : WidthTable α :=
  elements.foldl push (startingAt offset)

def toList (t : WidthTable α) : List (Nat × α) := t.entries.toList

/-- The element with an index, and its offset. -/
def get? (t : WidthTable α) (index : Nat) : Option (Nat × α) := t.entries[index]?

def locate (t : WidthTable α) (offset : Nat) : Located α :=
  let index := lowerBound t.entries offset
  match t.entries[index]? with
  | some (start, a) => if start = offset then .start index a else .inside index
  | none => .beyond

/-- The element that starts at an offset. -/
def find? (t : WidthTable α) (offset : Nat) : Option α :=
  match t.locate offset with
  | .start _ a => some a
  | _ => none

/-- The elements with their offsets, each written by `text`. -/
def describe (text : α → String) (t : WidthTable α) : String :=
  "[" ++ ", ".intercalate (t.toList.map fun (offset, a) => s!"#{offset} = " ++ text a) ++ "]"

/-- Tables with the same elements at the same offsets are the same. -/
def same [BEq α] (s t : WidthTable α) : Bool := s.entries == t.entries

end WidthTable

end Classfile
