import Stepwise.Yaml.Node

/-!
# Aliases

An alias stands for the node with its anchor. Aliases may nest and may even lead back to themselves,
so only so many are followed in one document, and nodes only nest so deep. A part of a document that
is never looked at does not count.
-/

namespace Stepwise.Yaml

/-- How many more aliases may be followed. -/
abbrev Following := StateT Nat Option

/-- How deep collections may nest. -/
def greatestDepth : Nat := 128

namespace Document

def target? (d : Document) (anchor : Nat) : Option Node :=
  (d.anchored.reverse.find? (·.1 = anchor)).map (·.2)

/-- The node itself, or the one an alias stands for. -/
def follow (d : Document) : Node → Following Node
  | .alias anchor => fun left =>
    match left, d.target? anchor with
    | left + 1, some node => some (node, left)
    | _, _ => none
  | node => pure node

/-- A node in which all aliases have been followed, for a depth that is left. -/
def expand (d : Document) : Nat → Node → Following Node
  | 0, node => do
    match ← d.follow node with
    | .scalar s => return .scalar s
    | _ => fun _ => none
  | depth + 1, node => do
    match ← d.follow node with
    | .list tag items => return .list tag (← items.mapM (d.expand depth))
    | .map tag entries =>
      return .map tag (← entries.mapM fun (key, value) => do
        return (← d.expand depth key, ← d.expand depth value))
    | node => return node

/-- A map whose entries are expanded by their keys; those for which there is no rule are left out.
-/
def expandEntries (d : Document) (rule : String → Option (Node → Following Node)) (node : Node) :
    Following Node := do
  match ← d.follow node with
  | .map tag entries =>
    let kept ← entries.filterMapM fun (key, value) => do
      match ← d.follow key with
      | .scalar s =>
        match rule s.text with
        | some expand => return some (Node.scalar s, ← expand value)
        | none => return none
      | _ => fun _ => none
    return .map tag kept
  | node => return node

def expandItems (d : Document) (expand : Node → Following Node) (node : Node) : Following Node := do
  match ← d.follow node with
  | .list tag items => return .list tag (← items.mapM expand)
  | node => return node

/-- A hundred aliases for each part of the document may be followed. -/
def following {α : Type} (d : Document) (f : Following α) : Option α := f.run' (100 * d.size)

end Document

end Stepwise.Yaml
