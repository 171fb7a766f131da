/-!
Texts that are shown line by line.
-/
namespace Classfile.Lines

/-- A line without the carriage return that may stand right before its newline. -/
def dropReturn (line : List Char) : List Char :=
  if line.getLast? = some '\r' then line.dropLast else line

/-- The lines of a text that is followed by a newline. Every newline inside the text ends a line as
well, so there is one more line than there are newlines in the text. -/
def ofText (s : String) : List String :=
  (s.toList.splitOn '\n').map fun line => String.ofList (dropReturn line)

end Classfile.Lines
