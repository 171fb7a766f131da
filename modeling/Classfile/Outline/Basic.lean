/-!
Outlines: trees of plain data that show what class files and their parts hold. A part with fields
is a record and one with a fixed row of operands is a list.
-/
namespace Classfile

/-- A passage is a text that can be as long as a constant. An excerpt is a list that can be as long
as a pool or the code of a method: to show its ends is enough. -/
inductive Outline
  | absent
  | truth (value : Bool)
  | number (value : Int)
  | text (value : String)
  | passage (value : String)
  | bytes (value : List UInt8)
  | list (items : List Outline)
  | excerpt (items : List Outline)
  | record (fields : List (String × Outline))

/-- Things that have an outline. -/
class Outlined (α : Type) where
  outline : α → Outline

export Outlined (outline)

instance {α : Type} [Outlined α] : CoeOut α Outline := ⟨outline⟩

namespace Outline

/-- A record with a field changed, or one more field. -/
def withField (o : Outline) (key : String) (value : Outline) : Outline :=
  match o with
  | record fields => record (fields.filter (·.1 ≠ key) ++ [(key, value)])
  | o => o

/-- The outline of a list of which the ends are enough. -/
def ends {α : Type} [Outlined α] (items : List α) : Outline := excerpt (items.map outline)

end Outline

section
variable {α β γ δ ε : Type} [Outlined α] [Outlined β] [Outlined γ] [Outlined δ] [Outlined ε]

instance : Outlined Outline := ⟨id⟩
instance : Outlined Unit := ⟨fun _ => .absent⟩
instance : Outlined Bool := ⟨.truth⟩
instance : Outlined Int := ⟨.number⟩
instance : Outlined Nat := ⟨fun n => .number n⟩
instance : Outlined UInt8 := ⟨fun n => .number n.toNat⟩
instance : Outlined UInt16 := ⟨fun n => .number n.toNat⟩
instance : Outlined Int8 := ⟨fun n => .number n.toInt⟩
instance : Outlined Int16 := ⟨fun n => .number n.toInt⟩
instance : Outlined Int32 := ⟨fun n => .number n.toInt⟩
instance : Outlined String := ⟨.text⟩
instance : Outlined (List α) := ⟨fun xs => .list (xs.map outline)⟩
instance : Outlined (List UInt8) := ⟨.bytes⟩

instance : Outlined (Option α) := ⟨fun
  | some a => outline a
  | none => .absent⟩

instance : Outlined (α × β) := ⟨fun (a, b) => .list [a, b]⟩
instance : Outlined (α × β × γ) := ⟨fun (a, b, c) => .list [a, b, c]⟩
instance : Outlined (α × β × γ × δ) := ⟨fun (a, b, c, d) => .list [a, b, c, d]⟩
instance : Outlined (α × β × γ × δ × ε) := ⟨fun (a, b, c, d, e) => .list [a, b, c, d, e]⟩

end

end Classfile
