import Stepwise.Binary64.Shortest
import Stepwise.Value.Json
import Stepwise.Yaml.TextStyle

/-!
# Writing values

Lists and maps are written as blocks, each item and each entry in a line of its own. The items of a
list that is the value of a key stand at the column of the key, and all else that is nested stands
two columns deeper.
-/

namespace Stepwise.Yaml

def realText (x : Binary64) : String :=
  if x.isFinite then x.text
  else if x.isNan then ".nan"
  else if x.signField then "-.inf"
  else ".inf"

/-- A value that is no collection, up to the start of the next line. -/
def scalarLine (indent : Nat) : Value → String
  | .str s => String.ofList (textLine indent s)
  | .real x => realText x ++ "\n"
  | value => value.compact ++ "\n"

/-- A key stands in one line; a text in quotes does. -/
def keyText : Value → String
  | .str s =>
    if textStyle s = .plain then s
    else
      let cs := s.toList
      String.ofList (if fitsPlain cs then singleQuotedText 0 cs else doubleQuotedText cs)
  | key => key.compact

def margin (indent : Nat) : String := String.ofList (blanks indent)

/-- Lines below each other, the first of which starts at the column already. -/
def lined (indent : Nat) (lines : List String) : String := (margin indent).intercalate lines

mutual

/-- A value that starts at a column. -/
def valueText (indent : Nat) : Value → String
  | .list items => if items.isEmpty then "[]\n" else lined indent (itemTexts indent items)
  | .map entries =>
    if entries.isEmpty then "\x7b\x7d\n" else lined indent (entryTexts indent entries)
  | value => scalarLine indent value

/-- A value after a key that starts at a column. -/
def valueOfKey (indent : Nat) : Value → String
  | .list items =>
    if items.isEmpty then " []\n"
    else "\n" ++ margin indent ++ lined indent (itemTexts indent items)
  | .map entries =>
    if entries.isEmpty then " \x7b\x7d\n"
    else "\n" ++ margin (indent + 2) ++ lined (indent + 2) (entryTexts (indent + 2) entries)
  | value => " " ++ scalarLine (indent + 2) value

def itemTexts (indent : Nat) : List Value → List String
  | [] => []
  | item :: rest => ("- " ++ valueText (indent + 2) item) :: itemTexts indent rest

def entryTexts (indent : Nat) : List (Value × Value) → List String
  | [] => []
  | (key, value) :: rest =>
    (keyText key ++ ":" ++ valueOfKey indent value) :: entryTexts indent rest

end

/-- The document of a value. -/
def write : Value → String
  | .list items => valueText 0 (.list items)
  | .map entries => valueText 0 (.map entries)
  | value => scalarLine 2 value

end Stepwise.Yaml
