import Stepwise.Folder

/-!
# Scripts

The lines of a file. A line ends with a line feed, and a carriage return before it does not belong
to the line. A line that is no text is an error when it is reached.
-/

namespace Stepwise

/-- A line of input, or why it cannot be read. -/
abbrev InputLine := Except FileError String

namespace Script

def dropReturn (line : List UInt8) : List UInt8 :=
  if line.getLast? = some 13 then line.dropLast else line

def decodeLine (line : List UInt8) : InputLine :=
  match String.fromUTF8? ⟨line.toArray⟩ with
  | some text => .ok text
  | none => .error .notText

/-- The last part of a content is a line only if there is something in it. -/
def lineParts (content : List UInt8) : List (List UInt8) :=
  let parts := Text.parts 10 content
  if parts.getLast? = some [] then parts.dropLast else parts

def lines (content : ByteArray) : List InputLine :=
  (lineParts content.toList).map fun line => decodeLine (dropReturn line)

/-- A folder can be opened like a file, but then its first line cannot be read. -/
def opened : Except FileError ByteArray → Except FileError (List InputLine)
  | .ok content => .ok (lines content)
  | .error .isDirectory => .ok [.error .isDirectory]
  | .error error => .error error

end Script

end Stepwise
