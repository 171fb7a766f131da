import Classfile.Binary.FormatError

/-!
Modified UTF-8, the form of text in class files. Text is taken as a sequence of 16-bit units, so a
character beyond the basic plane is a pair of surrogates; each unit is then one, two or three bytes,
and the unit zero takes two, so that no byte of an encoded text is zero.
-/
namespace Classfile.ModifiedUtf8

/-- The bytes of one 16-bit unit, in the shortest form that it has. -/
def encodeUnit (unit : Nat) : List UInt8 :=
  if 0 < unit ∧ unit < 0x80 then
    [UInt8.ofNat unit]
  else if unit < 0x800 then
    [UInt8.ofNat (0xc0 + unit / 64), UInt8.ofNat (0x80 + unit % 64)]
  else
    [UInt8.ofNat (0xe0 + unit / 4096), UInt8.ofNat (0x80 + unit / 64 % 64),
      UInt8.ofNat (0x80 + unit % 64)]

/-- The 16-bit units of a character. -/
def charUnits (c : Char) : List Nat :=
  if c.toNat < 0x10000 then [c.toNat]
  else [0xd800 + (c.toNat - 0x10000) / 0x400, 0xdc00 + (c.toNat - 0x10000) % 0x400]

def encodeChars (cs : List Char) : List UInt8 :=
  (cs.flatMap charUnits).flatMap encodeUnit

def encode (text : String) : List UInt8 := encodeChars text.toList

/-- May the byte follow the first byte of a longer form? -/
def isContinuation (byte : UInt8) : Bool := byte.toNat / 64 = 2

/-- The units that the bytes stand for, put behind what `done` holds in reverse. A form longer than
needed is accepted; a bare zero byte is not. -/
def unitsOnto (done : List Nat) : List UInt8 → Except FormatError (List Nat)
  | [] => .ok done.reverse
  | a :: rest =>
    if 0 < a.toNat ∧ a.toNat < 0x80 then
      unitsOnto (a.toNat :: done) rest
    else if a.toNat / 32 = 6 then
      match rest with
      | b :: rest =>
        if isContinuation b then unitsOnto ((a.toNat % 32 * 64 + b.toNat % 64) :: done) rest
        else .error .truncatedText
      | [] => .error .truncatedText
    else if a.toNat / 16 = 14 then
      match rest with
      | b :: c :: rest =>
        if isContinuation b && isContinuation c then
          unitsOnto
            ((a.toNat % 16 * 4096 + b.toNat % 64 * 64 + c.toNat % 64) :: done) rest
        else .error .truncatedText
      | _ => .error .truncatedText
    else .error (.badTextByte a)

def isLeading (unit : Nat) : Bool := 0xd800 ≤ unit && unit < 0xdc00
def isTrailing (unit : Nat) : Bool := 0xdc00 ≤ unit && unit < 0xe000

/-- The characters that the units stand for, put behind what `done` holds in reverse. Surrogates
must come in pairs, the leading one first. -/
def charsOnto (done : List Char) : List Nat → Except FormatError (List Char)
  | [] => .ok done.reverse
  | u :: rest =>
    if isLeading u then
      match rest with
      | v :: rest =>
        if isTrailing v then
          charsOnto (Char.ofNat (0x10000 + (u - 0xd800) * 0x400 + (v - 0xdc00)) :: done) rest
        else .error .unpairedSurrogate
      | [] => .error .unpairedSurrogate
    else if isTrailing u then .error .unpairedSurrogate
    else charsOnto (Char.ofNat u :: done) rest

def decodeChars (bytes : List UInt8) : Except FormatError (List Char) := do
  charsOnto [] (← unitsOnto [] bytes)

def decode (bytes : List UInt8) : Except FormatError String := do
  return String.ofList (← decodeChars bytes)

end Classfile.ModifiedUtf8
