import Classfile.Code.Arena
import Classfile.Code.Decoding
import Std.Data.HashMap

/-!
Reading code into an arena. The instructions are put in one after another before it is known where
their targets are; when each of them has its handle, the targets are filled in.
-/
namespace Classfile

/-- What a jump goes to until its target is known. -/
def Handle.unresolved : Handle := ⟨0xffffffff, 0xffffffff⟩

namespace Instruction

variable {τ : Type}

/-- The targets with others in their places, as many as there are. -/
def overlay : List τ → List τ → List τ
  | new :: others, _ :: targets => new :: overlay others targets
  | _, targets => targets

/-- The same instruction with others for its targets, in the order in which they are stored. -/
def patch (others : List τ) : Instruction τ → Instruction τ
  | branch condition target => branch condition (others.headD target)
  | jump kind target => jump kind (others.headD target)
  | wideJump kind target => wideJump kind (others.headD target)
  | tableSwitch default low cases =>
    tableSwitch (others.headD default) low (overlay others.tail cases)
  | lookupSwitch default cases =>
    lookupSwitch (others.headD default)
      ((cases.map (·.1)).zip (overlay others.tail (cases.map (·.2))))
  | i => i

end Instruction

namespace ArenaM

variable {α : Type}

def lift : Except Fault α → ArenaM α
  | .ok v => pure v
  | .error fault => refuse fault

/-- Put an instruction at the end, whatever it goes to. -/
def push (i : Instruction Handle) : ArenaM Handle := do splice i (← get).tail none

/-- Give the instruction with a handle other targets. -/
def patch (h : Handle) (targets : List Handle) : ArenaM Unit := modify fun a =>
  if a.contains h then
    a.change h.index fun node => { node with instruction := node.instruction.patch targets }
  else a

/-- The handles of instructions by their offsets. -/
def byOffset (offsets : List (Nat × Handle)) : Std.HashMap Int Handle :=
  .ofList (offsets.map fun entry => ((entry.1 : Int), entry.2))

/-- The handle of the instruction that starts where a target is. -/
def find (handles : Std.HashMap Int Handle) (start : Nat) (target : Int) : Except Fault Handle :=
  match handles[target]? with
  | some h => .ok h
  | none => .error (.malformedCode start (.offInstruction target))

/-- Fill in the targets of an instruction that starts at an offset, if it has any. -/
def fill (handles : Std.HashMap Int Handle) (start : Nat) (h : Handle) (targets : List Int) :
    ArenaM Unit := do
  unless targets.isEmpty do
    patch h (← lift (targets.mapM (find handles start)))

/-- Read code. Gives the offset of each instruction along with its handle. -/
def decode (pool : ConstantPool) (code : List UInt8) : ArenaM (Array (Nat × Handle)) := do
  let items ← lift (Instruction.readAll pool code)
  let handles ← items.mapM fun (_, i) => push (i.mapTargets fun _ => .unresolved)
  let offsets := (items.map (·.1)).zip handles
  (items.zip handles).forM fun ((start, i), h) => fill (byOffset offsets) start h i.targets
  return offsets.toArray

end ArenaM

end Classfile
