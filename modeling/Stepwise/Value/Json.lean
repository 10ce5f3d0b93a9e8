import Stepwise.Value
import Stepwise.Binary64.Shortest

/-!
# JSON text

The compact form has no blanks; the indented form puts each item and each entry on a line of its
own, two blanks deeper than the brackets around it, and writes empty lists and maps without a line
break. Control characters, quotes and backslashes in strings are escaped, all else stands as it is.
-/

namespace Stepwise.Value

def hexFour (n : Nat) : String :=
  String.ofList ([4096, 256, 16, 1].map fun place => Nat.digitChar (n / place % 16))

def escapeChar (c : Char) : String :=
  match c with
  | '"' => "\\\""
  | '\\' => "\\\\"
  | '\n' => "\\n"
  | '\r' => "\\r"
  | '\t' => "\\t"
  | '\x08' => "\\b"
  | '\x0c' => "\\f"
  | c => if c.toNat < 32 then "\\u" ++ hexFour c.toNat else c.toString

def quoted (s : String) : String := "\"" ++ String.join (s.toList.map escapeChar) ++ "\""

/-- A number that is not finite has no JSON form and is written as null. -/
def realText (x : Binary64) : String := if x.isFinite then x.text else "null"

mutual

def compact : Value → String
  | .null => "null"
  | .bool b => toString b
  | .int i => toString i
  | .minusZero => "-0"
  | .real x => realText x
  | .str s => quoted s
  | .list items => "[" ++ ",".intercalate (compactItems items) ++ "]"
  | .map entries => "\x7b" ++ ",".intercalate (compactEntries entries) ++ "\x7d"

def compactItems : List Value → List String
  | [] => []
  | item :: rest => compact item :: compactItems rest

def compactEntries : List (Value × Value) → List String
  | [] => []
  | (key, value) :: rest => (compact key ++ ":" ++ compact value) :: compactEntries rest

end

def indent (depth : Nat) : String := String.ofList (List.replicate (2 * depth) ' ')

/-- Brackets around lines, or with nothing between them. -/
def bracketed (opening closing : String) (depth : Nat) (lines : List String) : String :=
  if lines.isEmpty then opening ++ closing
  else
    opening ++ "\n" ++ ",\n".intercalate (lines.map (indent (depth + 1) ++ ·)) ++ "\n" ++
      indent depth ++ closing

mutual

/-- The indented form of a value that stands at a depth of brackets. -/
def indented (depth : Nat) : Value → String
  | .list items => bracketed "[" "]" depth (indentedItems depth items)
  | .map entries => bracketed "\x7b" "\x7d" depth (indentedEntries depth entries)
  | value => compact value

def indentedItems (depth : Nat) : List Value → List String
  | [] => []
  | item :: rest => indented (depth + 1) item :: indentedItems depth rest

def indentedEntries (depth : Nat) : List (Value × Value) → List String
  | [] => []
  | (key, value) :: rest =>
    (compact key ++ ": " ++ indented (depth + 1) value) :: indentedEntries depth rest

end

end Stepwise.Value
