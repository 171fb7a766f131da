import Classfile.Text.Quoted

/-! Why bytes do not follow the class file format, or why a value has no place in it. -/
namespace Classfile

/-- What a reader or writer of the format can fail with. -/
inductive FormatError
  | endOfInput
  | tooManyElements
  | textTooLong
  | truncatedText
  | badTextByte (byte : UInt8)
  | unpairedSurrogate
  | unknownConstantTag (tag : UInt8)
  | unknownHandleKind (code : UInt8)
  | unknownElementTag (tag : UInt8)
  | tooManyAnnotations (count : Nat)
  | tooManyParameters (count : Nat)
  | badMagic (bytes : List UInt8)
  | constantOverrun
  | poolTooLarge
  deriving DecidableEq, Repr

/-- The broad cause of a failure at the boundary of the format. -/
inductive FailureKind
  | invalidInput
  | invalidData
  | unexpectedEnd
  deriving DecidableEq, Repr

namespace FormatError

def kind : FormatError → FailureKind
  | endOfInput => .unexpectedEnd
  | tooManyElements => .invalidInput
  | _ => .invalidData

def message : FormatError → String
  | endOfInput => "failed to fill whole buffer"
  | tooManyElements => "more than 65535 elements"
  | textTooLong => "UTF-8 constant is longer than 65535 bytes"
  | truncatedText => "truncated modified UTF-8 sequence"
  | badTextByte byte => "invalid modified UTF-8 byte 0x" ++ Hex.byte byte
  | unpairedSurrogate => "unpaired surrogate in UTF-8 constant"
  | unknownConstantTag tag => s!"unknown constant tag {tag}"
  | unknownHandleKind code => s!"unknown method handle kind {code}"
  | unknownElementTag tag =>
    "unknown element value tag " ++ Quoted.char (Char.ofNat tag.toNat)
  | tooManyAnnotations count => s!"{count} annotations is too many"
  | tooManyParameters count => s!"{count} parameters is too many to annotate"
  | badMagic bytes =>
    "bad magic number [" ++ ", ".intercalate (bytes.map Hex.byte) ++ "]"
  | constantOverrun => "wide constant overruns the constant pool"
  | poolTooLarge => "constant pool has more than 65535 slots"

end FormatError

end Classfile
