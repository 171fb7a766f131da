import Classfile.Pool.Basic

/-!
Computations that edit the draft of a member. A draft refers to constants of a pool that it shares
with others, so both change together.
-/
namespace Classfile

/-- Computations that edit a draft and can add to the pool. What was done before a fault stays. -/
abbrev DraftM (δ : Type) := EStateM Fault (δ × ConstantPool)

namespace DraftM

variable {δ α : Type}

/-- The draft as it is now. -/
def draft : DraftM δ δ := fun s => .ok s.1 s

/-- Ask the draft and the pool without changing them. -/
def ask (question : δ → ConstantPool → Except Fault α) : DraftM δ α := fun s =>
  match question s.1 s.2 with
  | .ok a => .ok a s
  | .error e => .error e s

/-- Add to the pool. -/
def onPool (x : PoolM α) : DraftM δ α := fun s =>
  match x s.2 with
  | .ok a pool => .ok a (s.1, pool)
  | .error e pool => .error e (s.1, pool)

def change (f : δ → δ) : DraftM δ Unit := modify fun s => (f s.1, s.2)

/-- The draft that an edit makes of a draft, unless it fails. -/
def result (x : DraftM δ Unit) (d : δ) (pool : ConstantPool) : Except Fault δ :=
  match x (d, pool) with
  | .ok _ s => .ok s.1
  | .error e _ => .error e

end DraftM

end Classfile
