/-! Hexadecimal digits, written in lower case and read in either. -/
namespace Classfile.Hex

/-- The digit of a number below sixteen. -/
def digit (n : Nat) : Char :=
  if n < 10 then Char.ofNat (48 + n) else Char.ofNat (87 + n)

/-- A byte is written with two digits. -/
def byte (b : UInt8) : String :=
  String.ofList [digit (b.toNat / 16), digit (b.toNat % 16)]

/-- A number is written with as few digits as it needs. -/
def number (n : Nat) : List Char := Nat.toDigits 16 n

/-- The value of a digit. -/
def digit? (c : Char) : Option Nat :=
  if '0' ≤ c ∧ c ≤ '9' then some (c.toNat - 48)
  else if 'a' ≤ c ∧ c ≤ 'f' then some (c.toNat - 87)
  else if 'A' ≤ c ∧ c ≤ 'F' then some (c.toNat - 55)
  else none

/-- The bytes that pairs of digits stand for, behind those that `done` holds in reverse. -/
def bytesOnto? (done : List UInt8) : List Char → Option (List UInt8)
  | [] => some done.reverse
  | [_] => none
  | a :: b :: rest =>
    match digit? a, digit? b with
    | some high, some low => bytesOnto? (UInt8.ofNat (16 * high + low) :: done) rest
    | _, _ => none

/-- The bytes that pairs of digits stand for. -/
def bytes? (text : String) : Option (List UInt8) := bytesOnto? [] text.toList

end Classfile.Hex
