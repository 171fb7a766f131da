/-!
Binary search in an array of pairs sorted by their first component.
-/
namespace Classfile

variable {α : Type}

/-- Halve the stretch from `lo` to `hi` until it is empty. The first key of `entries` that is not
below `key` never leaves it. -/
def lowerBoundIn (entries : Array (Nat × α)) (key : Nat) : Nat → Nat → Nat → Nat
  | 0, lo, _ => lo
  | fuel + 1, lo, hi =>
    if lo < hi then
      let mid := lo + (hi - lo) / 2
      match entries[mid]? with
      | some (k, _) =>
        if k < key then lowerBoundIn entries key fuel (mid + 1) hi
        else lowerBoundIn entries key fuel lo mid
      | none => lo
    else lo

/-- How many entries come before the first one whose key is not below `key`. -/
def lowerBound (entries : Array (Nat × α)) (key : Nat) : Nat :=
  lowerBoundIn entries key (Nat.log2 entries.size + 1) 0 entries.size

end Classfile
