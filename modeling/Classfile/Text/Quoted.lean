import Classfile.Text.Hex
import Classfile.Text.Printable

/-!
Quoted text, as it appears in messages and listings: the quotation mark itself, the backslash and
every character that is not printable are written as escapes.
-/
namespace Classfile.Quoted

/-- The code point of a character between braces. -/
def escapeCodePoint (c : Char) : List Char :=
  ['\\', 'u', '\x7b'] ++ Hex.number c.toNat ++ ['\x7d']

/-- One character of a text between two `mark`s. -/
def escape (mark c : Char) : List Char :=
  if c = mark ∨ c = '\\' then ['\\', c]
  else if c = '\n' then ['\\', 'n']
  else if c = '\r' then ['\\', 'r']
  else if c = '\t' then ['\\', 't']
  else if c = '\x00' then ['\\', '0']
  else if Printable.isPrintable c then [c]
  else escapeCodePoint c

/-- A text between double quotes. -/
def string (s : String) : String :=
  String.ofList ('"' :: s.toList.flatMap (escape '"') ++ ['"'])

/-- A character between single quotes. -/
def char (c : Char) : String :=
  String.ofList ('\'' :: escape '\'' c ++ ['\''])

end Classfile.Quoted
