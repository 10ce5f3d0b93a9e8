import Stepwise.Template.Format
import Stepwise.Yaml.Expansion
import Stepwise.Yaml.Resolution
import Stepwise.Yaml.Token.Lexer
import Stepwise.Yaml.Writing

/-!
# Workflows in YAML

A workflow is read from the first and only document of a text. The workflow itself, its templates
and their metadata are read as the document shows them: a text is any scalar, whatever it looks
like. The other fields of a template are first taken as values.
-/

namespace Stepwise

namespace Yaml

def isEmptyPlain (s : Scalar) : Bool := s.style = .plain && s.text.isEmpty

def Node.text? : Node → Option String
  | .scalar s => some s.text
  | _ => none

/-- An integer is written plainly, or as a literal text with the tag for integers. -/
def Node.integerText? : Node → Option (List Char)
  | .scalar s =>
    let tagged := s.style = .literal && s.tag = some (.core "int")
    if s.style = .plain || tagged then some s.text.toList else none
  | _ => none

/-- A plain scalar without a tag may stand for nothing; the tag for nothing demands it. -/
def Node.optional? : Node → Option (Option Node)
  | .scalar s =>
    if s.style ≠ .plain then some (some (.scalar s))
    else
      match s.tag with
      | none => if s.text.isEmpty || isNullText s.text then some none else some (some (.scalar s))
      | some tag =>
        if tag = .core "null" then if isNullText s.text then some none else none
        else some (some (.scalar s))
  | node => some (some node)

/-- A case is the text of a scalar, or the tag of one that stands for nothing. -/
def Node.label? : Node → Option Label
  | .scalar s =>
    match s.tag.bind Tag.ownName? with
    | none => some (.name s.text)
    | some name =>
      if s.style = .plain && (s.text.isEmpty || isNullText s.text) then some (.name name) else none
  | _ => none

/-- The entries of a map with its keys as texts. An empty plain scalar has none. -/
def Node.entries? : Node → Option (List (String × Node))
  | .map _ entries => entries.mapM fun (key, value) => return (← key.text?, value)
  | .scalar s => if isEmptyPlain s then some [] else none
  | _ => none

def Node.record? (names : List String) (node : Node) : Option (List (String × Node)) := do
  return (← node.entries?).filter fun (name, _) => name ∈ names

/-- The items of a list. An empty plain scalar has none. -/
def Node.items? : Node → Option (List Node)
  | .list _ items => some items
  | .scalar s => if isEmptyPlain s then some [] else none
  | _ => none

def reading : Stepwise.Reading Node where
  text := Node.text?
  signed node := node.integerText? >>= signed?
  unsigned node := node.integerText? >>= unsigned?
  optional := Node.optional?
  label := Node.label?
  fields := Node.record?
  value := Node.value?
  entries := Node.entries?
  items := Node.items?

/-- Follows the aliases in the parts of a document that describe a workflow. Three collections are
around the fields of a template. -/
def expandWorkflow (d : Document) : Following Node :=
  let all : Node → Following Node := d.expand (greatestDepth - 3)
  let reminder : Node → Following Node :=
    d.expandEntries fun name => if name ∈ ["interval", "unit"] then some all else none
  let template : Node → Following Node :=
    d.expandEntries fun name => some (if name = "timer" then reminder else all)
  let workflow : Node → Following Node :=
    d.expandEntries fun name =>
      if name = "timer" then some reminder
      else if name = "blocks" then some (d.expandItems template)
      else if name ∈ ["description", "id"] then some all
      else none
  workflow d.root

/-- The first and only document of a text, without its aliases. -/
def parse? (text : String) : Option Node := do
  let document ← Document.ofTokens? (← tokens? text)
  document.following (expandWorkflow document)

def format : Format where
  Part := Node
  reading := reading
  write v := some (write v)
  parse := parse?

end Yaml

def Workflow.load (text : String) : Except WorkflowError Workflow × List Caution :=
  Yaml.format.load text

end Stepwise
