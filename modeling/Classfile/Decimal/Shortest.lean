/-!
The shortest decimal number within given bounds. A binary floating point number stands for every
real number that rounds to it; of the decimal numbers with the fewest digits among those, the one
nearest to it is the one to print.
-/
namespace Classfile.Decimal

/-- A number between two bounds, all three with one denominator. The bounds belong to the interval
if it is closed. -/
structure Interval where
  low : Nat
  value : Nat
  high : Nat
  denominator : Nat
  closed : Bool

/-- The decimal number `digits * 10 ^ exponent`. -/
structure Number where
  digits : Nat
  exponent : Int
  deriving DecidableEq, Repr

namespace Interval

/-- The interval divided by `10 ^ exponent`. -/
def descale (i : Interval) (exponent : Int) : Interval :=
  let up := Nat.pow 10 (-exponent).toNat
  { i with
    low := i.low * up
    value := i.value * up
    high := i.high * up
    denominator := i.denominator * Nat.pow 10 exponent.toNat }

def admits (i : Interval) (n : Nat) : Bool :=
  let m := n * i.denominator
  if i.closed then i.low ≤ m && m ≤ i.high else i.low < m && m < i.high

/-- The natural number of the interval that is nearest to the value, if one of the value's two
neighbours lies in it. Of two equally near the larger is taken. -/
def nearest? (i : Interval) : Option Nat :=
  let below := i.value / i.denominator
  match i.admits below, i.admits (below + 1) with
  | true, true =>
    if 2 * (i.value - below * i.denominator) < i.denominator then some below
    else some (below + 1)
  | true, false => some below
  | false, true => some (below + 1)
  | false, false => none

/-- The first power of ten, from `exponent` down, of which a multiple lies in the interval. -/
def coarsest (i : Interval) : Nat → Int → Number
  | 0, exponent => ⟨(i.descale exponent).value / (i.descale exponent).denominator, exponent⟩
  | more + 1, exponent =>
    match (i.descale exponent).nearest? with
    | some digits => ⟨digits, exponent⟩
    | none => coarsest i more (exponent - 1)

end Interval

/-- How many decimal digits a number has. Zero has none. -/
def digitCount (n : Nat) : Nat :=
  if n = 0 then 0 else (Nat.toDigits 10 n).length

/-- The exponent of the greatest power of ten that is not above a positive fraction. -/
def magnitude (numerator denominator : Nat) : Int :=
  if denominator ≤ numerator then digitCount (numerator / denominator) - 1
  else -digitCount ((denominator - 1) / numerator)

/-- No zeros at the end of the digits. -/
def Number.trim : Nat → Number → Number
  | 0, n => n
  | more + 1, n =>
    if n.digits ≠ 0 ∧ n.digits % 10 = 0 then trim more ⟨n.digits / 10, n.exponent + 1⟩ else n

/-- The shortest number of an interval, which need not have more than seventeen digits. -/
def Interval.shortest (i : Interval) : Number :=
  (i.coarsest 17 (magnitude i.value i.denominator)).trim 17

end Classfile.Decimal
