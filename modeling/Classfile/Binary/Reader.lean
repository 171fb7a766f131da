import Classfile.Binary.BigEndian
import Classfile.Binary.FormatError

/-!
Reading from the front of a list of bytes. A reader gives back what it read together with the bytes
that follow.
-/
namespace Classfile

def Reader (α : Type) : Type := List UInt8 → Except FormatError (α × List UInt8)

namespace Reader

variable {α β : Type}

@[inline] protected def pure (a : α) : Reader α := fun bytes => .ok (a, bytes)

@[inline] protected def bind (r : Reader α) (f : α → Reader β) : Reader β := fun bytes =>
  match r bytes with
  | .ok (a, rest) => f a rest
  | .error e => .error e

instance : Monad Reader where
  pure := Reader.pure
  bind := Reader.bind

def fail (e : FormatError) : Reader α := fun _ => .error e

def u8 : Reader UInt8
  | [] => .error .endOfInput
  | byte :: rest => .ok (byte, rest)

/-- Exactly `count` bytes. -/
def bytes (count : Nat) : Reader (List UInt8) := fun input =>
  let (front, rest) := input.splitAt count
  if front.length = count then .ok (front, rest) else .error .endOfInput

def number (width : Nat) : Reader Nat := do
  return BigEndian.unpack (← bytes width)

def i8 : Reader Int8 := do return (← u8).toInt8
def u16 : Reader UInt16 := do return UInt16.ofNat (← number 2)
def i16 : Reader Int16 := do return (← u16).toInt16
def u32 : Reader UInt32 := do return UInt32.ofNat (← number 4)
def i32 : Reader Int32 := do return (← u32).toInt32
def u64 : Reader UInt64 := do return UInt64.ofNat (← number 8)
def i64 : Reader Int64 := do return (← u64).toInt64

/-- The same reader `count` times over, put behind what `done` holds in reverse. -/
def timesOnto (r : Reader α) (done : List α) : Nat → Reader (List α)
  | 0, bytes => .ok (done.reverse, bytes)
  | count + 1, bytes =>
    match r bytes with
    | .ok (a, rest) => timesOnto r (a :: done) count rest
    | .error e => .error e

/-- The same reader `count` times over. -/
def times (count : Nat) (r : Reader α) : Reader (List α) := timesOnto r [] count

/-- A sequence that begins with its length in two bytes. -/
def counted (r : Reader α) : Reader (List α) := do
  times (← u16).toNat r

end Reader

end Classfile
