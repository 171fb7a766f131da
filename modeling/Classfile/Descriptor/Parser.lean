import Classfile.Binary.FormatError
import Classfile.Descriptor.Basic

/-! Reading descriptors. A descriptor is read from the front of a text and leaves the rest. -/
namespace Classfile

inductive DescriptorError
  | badBaseType (found : Char)
  | noBaseType
  | noFieldType
  | badFieldType (found : Char)
  | emptyClassName
  | unterminatedClassName (name : String)
  | noOpening
  | noClosing
  | leftover (found : Char)
  deriving DecidableEq, Repr

namespace DescriptorError

def kind : DescriptorError → FailureKind
  | noBaseType | noFieldType | unterminatedClassName _ | noClosing => .unexpectedEnd
  | _ => .invalidInput

def message : DescriptorError → String
  | badBaseType found => s!"Invalid base type character '{found}'"
  | noBaseType => "Missing base type character"
  | noFieldType => "Missing field type"
  | badFieldType found => s!"Invalid field type character '{found}'"
  | emptyClassName => "Empty class name in object type"
  | unterminatedClassName name => s!"Missing terminator for 'L{name}'"
  | noOpening => "Expected '(' for method"
  | noClosing => "Expected ')' for method"
  | leftover found => s!"Unexpected leftover input '{found}'"

end DescriptorError

/-- Nothing may be left of a text that is read as a whole. -/
def readWhole {α : Type} (read : List Char → Except DescriptorError (α × List Char))
    (text : String) : Except DescriptorError α :=
  match read text.toList with
  | .error e => .error e
  | .ok (a, []) => .ok a
  | .ok (_, c :: _) => .error (.leftover c)

namespace BaseType

def read : List Char → Except DescriptorError (BaseType × List Char)
  | [] => .error .noBaseType
  | c :: rest =>
    match ofLetter? c with
    | some type => .ok (type, rest)
    | none => .error (.badBaseType c)

def parse (text : String) : Except DescriptorError BaseType := readWhole read text

end BaseType

namespace FieldType

/-- A class name up to its semicolon. -/
def readClassName (chars : List Char) : Except DescriptorError (String × List Char) :=
  let (name, rest) := chars.span (· ≠ ';')
  match rest, name with
  | [], _ => .error (.unterminatedClassName (String.ofList name))
  | _ :: _, [] => .error .emptyClassName
  | _ :: rest, _ => .ok (String.ofList name, rest)

def read : List Char → Except DescriptorError (FieldType × List Char)
  | [] => .error .noFieldType
  | c :: rest =>
    match BaseType.ofLetter? c with
    | some type => .ok (base type, rest)
    | none =>
      if c = 'L' then do
        let (name, rest) ← readClassName rest
        return (object name, rest)
      else if c = '[' then do
        let (element, rest) ← read rest
        return (array element, rest)
      else .error (.badFieldType c)

def parse (text : String) : Except DescriptorError FieldType := readWhole read text

end FieldType

namespace MethodDescriptor

/-- The parameters up to a closing parenthesis or the end, put behind what `done` holds in reverse.
Each one takes a character at least, so there are no more of them than characters. -/
def readParametersOnto (done : List FieldType) :
    Nat → List Char → Except DescriptorError (List FieldType × List Char)
  | 0, chars => .ok (done.reverse, chars)
  | more + 1, chars =>
    match chars with
    | [] => .ok (done.reverse, [])
    | c :: rest =>
      if c = ')' then .ok (done.reverse, c :: rest)
      else
        match FieldType.read (c :: rest) with
        | .ok (type, rest) => readParametersOnto (type :: done) more rest
        | .error e => .error e

def readReturns : List Char → Except DescriptorError (Option FieldType × List Char)
  | 'V' :: rest => .ok (none, rest)
  | chars => do
    let (type, rest) ← FieldType.read chars
    return (some type, rest)

def read : List Char → Except DescriptorError (MethodDescriptor × List Char)
  | '(' :: chars => do
    let (parameters, rest) ← readParametersOnto [] chars.length chars
    match rest with
    | ')' :: rest =>
      let (returns, rest) ← readReturns rest
      return (⟨parameters, returns⟩, rest)
    | _ => throw .noClosing
  | _ => .error .noOpening

def parse (text : String) : Except DescriptorError MethodDescriptor := readWhole read text

end MethodDescriptor

end Classfile
