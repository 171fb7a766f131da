import Classfile.Decimal.Shortest

/-! Floating point numbers, given by their bits, as decimal text. -/
namespace Classfile

/-- A binary interchange format. -/
structure FloatFormat where
  fractionBits : Nat
  exponentBits : Nat

namespace FloatFormat

def single : FloatFormat := ⟨23, 8⟩
def double : FloatFormat := ⟨52, 11⟩

def fraction (f : FloatFormat) (bits : Nat) : Nat := bits % (1 <<< f.fractionBits)

def biasedExponent (f : FloatFormat) (bits : Nat) : Nat :=
  (bits >>> f.fractionBits) % (1 <<< f.exponentBits)

def isNegative (f : FloatFormat) (bits : Nat) : Bool :=
  bits.testBit (f.fractionBits + f.exponentBits)

/-- The integer that a power of two is to be multiplied with. -/
def significand (f : FloatFormat) (bits : Nat) : Nat :=
  if f.biasedExponent bits = 0 then f.fraction bits
  else (1 <<< f.fractionBits) + f.fraction bits

/-- The exponent of that power of two. -/
def exponent (f : FloatFormat) (bits : Nat) : Int :=
  (max (f.biasedExponent bits) 1 : Int) - ((1 <<< (f.exponentBits - 1)) - 1 + f.fractionBits : Nat)

/-- The numbers that round to the given one: half way to its neighbours, which are half as far apart
below a power of two. A number half way rounds to the even neighbour. -/
def interval (f : FloatFormat) (bits : Nat) : Decimal.Interval :=
  let m := f.significand bits
  let e := f.exponent bits - 2
  let below := if f.fraction bits = 0 ∧ f.biasedExponent bits ≠ 0 then 1 else 2
  ⟨(4 * m - below) <<< e.toNat, (4 * m) <<< e.toNat, (4 * m + 2) <<< e.toNat, 1 <<< (-e).toNat,
    m % 2 = 0⟩

end FloatFormat

/-- The powers of ten between which numbers are written without an exponent. -/
structure FloatStyle where
  least : Int
  most : Int

/-- Numbers from `10 ^ -4` up to `10 ^ 16` are written without an exponent. -/
def FloatStyle.constants : FloatStyle := ⟨-4, 15⟩

namespace FloatStyle

/-- A decimal number. Without an exponent it has at least one digit on either side of the point;
with one it has a point only if it has more than one digit. -/
def number (style : FloatStyle) (n : Decimal.Number) : List Char :=
  let digits := Nat.toDigits 10 n.digits
  let magnitude := n.exponent + digits.length - 1
  if style.least ≤ magnitude ∧ magnitude ≤ style.most then
    if magnitude < 0 then
      ['0', '.'] ++ List.replicate (-magnitude - 1).toNat '0' ++ digits
    else
      let whole := magnitude.toNat + 1
      if digits.length ≤ whole then
        digits ++ List.replicate (whole - digits.length) '0' ++ ['.', '0']
      else digits.take whole ++ ['.'] ++ digits.drop whole
  else
    let rest := digits.drop 1
    digits.take 1 ++ (if rest = [] then [] else '.' :: rest) ++ ['e'] ++
      (toString magnitude).toList

/-- Any number of a format. A number that is not one has no sign. -/
def float (style : FloatStyle) (f : FloatFormat) (bits : Nat) : String :=
  let sign := if f.isNegative bits then "-" else ""
  if f.biasedExponent bits + 1 = 1 <<< f.exponentBits then
    if f.fraction bits = 0 then sign ++ "inf" else "NaN"
  else if f.significand bits = 0 then sign ++ "0.0"
  else sign ++ String.ofList (style.number (f.interval bits).shortest)

end FloatStyle

/-- A single precision constant. -/
def singleText (bits : UInt32) : String :=
  FloatStyle.constants.float .single bits.toNat

/-- A double precision constant. -/
def doubleText (bits : UInt64) : String :=
  FloatStyle.constants.float .double bits.toNat

end Classfile
