import Classfile.Image.Basic

/-! Classes by name. The first class of a name is the one that is kept. -/
namespace Classfile

/-- Classes with their names, in the order of the names' characters. -/
structure Catalog where
  entries : List (String × ClassImage)

namespace Catalog

def empty : Catalog := ⟨[]⟩

def size (c : Catalog) : Nat := c.entries.length

def isEmpty (c : Catalog) : Bool := c.entries.isEmpty

def names (c : Catalog) : List String := c.entries.map (·.1)

def get? (c : Catalog) (name : String) : Option ClassImage :=
  (c.entries.find? fun entry => entry.1 = name).map (·.2)

def contains (c : Catalog) (name : String) : Bool := (c.get? name).isSome

/-- Put a class behind those with smaller names. -/
def insertSorted (name : String) (image : ClassImage) :
    List (String × ClassImage) → List (String × ClassImage)
  | [] => [(name, image)]
  | entry :: rest =>
    if entry.1 < name then entry :: insertSorted name image rest
    else (name, image) :: entry :: rest

/-- Add a class. Says whether there was a class of that name already, which then stays. -/
def add (c : Catalog) (image : ClassImage) : Except Fault (Bool × Catalog) := do
  let name ← image.name
  if c.contains name then return (true, c)
  else return (false, ⟨insertSorted name image c.entries⟩)

/-- Take a class away. -/
def remove (c : Catalog) (name : String) : Option ClassImage × Catalog :=
  (c.get? name, ⟨c.entries.filter fun entry => entry.1 ≠ name⟩)

end Catalog

end Classfile
