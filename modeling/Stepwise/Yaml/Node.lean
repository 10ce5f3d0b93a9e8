import Stepwise.Yaml.Token

/-!
# Nodes

The tree that a stream of tokens stands for. Nodes may be anchored under a name and referred to by
an alias later. An anchor is known by the number of different names before it; when a name is used
again this number can come up twice, and then the later node counts.
-/

namespace Stepwise.Yaml

structure Scalar where
  text : String
  style : Style
  tag : Option Tag
  deriving DecidableEq, Repr

inductive Node where
  | scalar (s : Scalar)
  | list (tag : Option Tag) (items : List Node)
  | map (tag : Option Tag) (entries : List (Node × Node))
  | alias (anchor : Nat)
  deriving Inhabited

def Node.empty : Node := .scalar ⟨"", .plain, none⟩

/-- The content of a stream: its root, and its anchored nodes with their anchors, in the order in
which they start. -/
structure Document where
  root : Node
  anchored : List (Nat × Node)
  /-- The number of scalars, aliases, and starts and ends of collections. -/
  size : Nat

/-- What is known while a tree is put together. -/
structure Composer where
  tokens : List Token
  /-- The expansions of tag handles. -/
  handles : List (String × Tag)
  /-- The anchor of each name. -/
  names : List (String × Nat)
  /-- The number of anchored nodes that have been started. -/
  started : Nat
  /-- Anchored nodes that are complete, with their place among those started and their anchor. -/
  completed : List (Nat × Nat × Node)
  size : Nat

abbrev Composing := StateT Composer Option

namespace Composing

def fail {α : Type} : Composing α := fun _ => none

def peek : Composing Token := do return (← get).tokens.headD .streamEnd

def skip : Composing Unit := modify fun c => { c with tokens := c.tokens.tail }

/-- Counts parts of the document. -/
def count (n : Nat) : Composing Unit := modify fun c => { c with size := c.size + n }

def expandTag (handle : String) (suffix : Tag) : Composing Tag := do
  if handle.isEmpty then return suffix
  match (← get).handles.find? (·.1 = handle) with
  | some (_, expansion) => return expansion ++ suffix
  | none => fail

/-- An anchor and a tag, each at most once and in any order. -/
def properties : Composing (Option String × Option Tag) := do
  match ← peek with
  | .anchor name =>
    skip
    match ← peek with
    | .tag handle suffix => skip; return (some name, some (← expandTag handle suffix))
    | _ => return (some name, none)
  | .tag handle suffix =>
    skip
    match ← peek with
    | .anchor name => skip; return (some name, some (← expandTag handle suffix))
    | _ => return (none, some (← expandTag handle suffix))
  | _ => return (none, none)

/-- Starts a node, giving its place and anchor if it is anchored. -/
def startNode (name : Option String) : Composing (Option (Nat × Nat)) := do
  match name with
  | none => return none
  | some name =>
    let c ← get
    let anchor := c.names.length
    set { c with names := (name, anchor) :: c.names.filter (·.1 ≠ name), started := c.started + 1 }
    return some (c.started, anchor)

def completeNode (mark : Option (Nat × Nat)) (node : Node) : Composing Node := do
  match mark with
  | none => return node
  | some (place, anchor) =>
    modify fun c => { c with completed := (place, anchor, node) :: c.completed }
    return node

def emptyNode : Composing Node := do
  count 1
  return .empty

/-- Whether the content of an entry in a block is left out. -/
def endsBlockEntry (t : Token) : Bool := t = .blockEntry || t = .blockEnd

/-- Whether the content of a key or a value in a block is left out. -/
def endsBlockPart (t : Token) : Bool := t = .key || t = .value || t = .blockEnd

mutual

/-- A node. Blocks are allowed outside brackets, and there the entries of a list that is the value
of a key need not be indented. -/
def node (block unindented : Bool) : Nat → Composing Node
  | 0 => fail
  | fuel + 1 => do
    match ← peek with
    | .alias name =>
      skip
      count 1
      match (← get).names.find? (·.1 = name) with
      | some (_, anchor) => return .alias anchor
      | none => fail
    | _ =>
      let (name, tag) ← properties
      let mark ← startNode name
      match ← peek with
      | .scalar text style =>
        skip
        count 1
        completeNode mark (.scalar ⟨text, style, tag⟩)
      | .flowSequenceStart =>
        skip
        count 2
        completeNode mark (.list tag (← flowItems true fuel))
      | .flowMappingStart =>
        skip
        count 2
        completeNode mark (.map tag (← flowEntries true fuel))
      | .blockEntry =>
        if unindented then
          count 2
          completeNode mark (.list tag (← unindentedItems fuel))
        else if name.isSome || tag.isSome then
          count 1
          completeNode mark (.scalar ⟨"", .plain, tag⟩)
        else fail
      | .blockSequenceStart =>
        if block then
          skip
          count 2
          completeNode mark (.list tag (← blockItems fuel))
        else fail
      | .blockMappingStart =>
        if block then
          skip
          count 2
          completeNode mark (.map tag (← blockEntries fuel))
        else fail
      | _ =>
        if name.isSome || tag.isSome then
          count 1
          completeNode mark (.scalar ⟨"", .plain, tag⟩)
        else fail

def blockItems : Nat → Composing (List Node)
  | 0 => fail
  | fuel + 1 => do
    match ← peek with
    | .blockEntry =>
      skip
      let item ← if endsBlockEntry (← peek) then emptyNode else node true false fuel
      return item :: (← blockItems fuel)
    | .blockEnd => skip; return []
    | _ => fail

def unindentedItems : Nat → Composing (List Node)
  | 0 => fail
  | fuel + 1 => do
    match ← peek with
    | .blockEntry =>
      skip
      let next ← peek
      let leftOut := next = .blockEntry || endsBlockPart next
      let item ← if leftOut then emptyNode else node true false fuel
      return item :: (← unindentedItems fuel)
    | _ => return []

def blockEntries : Nat → Composing (List (Node × Node))
  | 0 => fail
  | fuel + 1 => do
    match ← peek with
    | .key =>
      skip
      let key ← if endsBlockPart (← peek) then emptyNode else node true true fuel
      match ← peek with
      | .value =>
        skip
        let value ← if endsBlockPart (← peek) then emptyNode else node true true fuel
        return (key, value) :: (← blockEntries fuel)
      | _ => return (key, ← emptyNode) :: (← blockEntries fuel)
    | .blockEnd => skip; return []
    | _ => fail

/-- The items of a list in brackets; a key among them makes a map of one entry. -/
def flowItems (first : Bool) : Nat → Composing (List Node)
  | 0 => fail
  | fuel + 1 => do
    if (← peek) = .flowSequenceEnd then skip; return []
    if !first then
      if (← peek) ≠ .flowEntry then fail
      skip
    match ← peek with
    | .flowSequenceEnd => skip; return []
    | .key =>
      skip
      count 2
      let entry ← flowPair fuel
      return .map none [entry] :: (← flowItems false fuel)
    | _ => return (← node false false fuel) :: (← flowItems false fuel)

/-- The entry of such a map. Where the key is left out, the token that shows this is passed over. -/
def flowPair : Nat → Composing (Node × Node)
  | 0 => fail
  | fuel + 1 => do
    let next ← peek
    let key ←
      if next = .value || next = .flowEntry || next = .flowSequenceEnd then do skip; emptyNode
      else node false false fuel
    if (← peek) = .value then
      skip
      let next ← peek
      if next = .flowEntry || next = .flowSequenceEnd then return (key, ← emptyNode)
      else return (key, ← node false false fuel)
    else return (key, ← emptyNode)

def flowEntries (first : Bool) : Nat → Composing (List (Node × Node))
  | 0 => fail
  | fuel + 1 => do
    if (← peek) = .flowMappingEnd then skip; return []
    if !first then
      if (← peek) ≠ .flowEntry then fail
      skip
    let ends (t : Token) : Bool := t = .flowEntry || t = .flowMappingEnd
    match ← peek with
    | .flowMappingEnd => skip; return []
    | .key =>
      skip
      let next ← peek
      let key ← if next = .value || ends next then emptyNode else node false false fuel
      if (← peek) = .value then
        skip
        let value ← if ends (← peek) then emptyNode else node false false fuel
        return (key, value) :: (← flowEntries false fuel)
      else return (key, ← emptyNode) :: (← flowEntries false fuel)
    | _ =>
      let key ← node false false fuel
      return (key, ← emptyNode) :: (← flowEntries false fuel)

end

def defaultHandles : List (String × Tag) := [("!", .mark), ("!!", .core "")]

/-- The directives before a document. A version is given once, and each handle once. -/
def directives : Nat → Bool → List (String × Tag) → Composing (List (String × Tag))
  | 0, _, _ => fail
  | fuel + 1, versioned, handles => do
    match ← peek with
    | .version major minor =>
      if versioned || major ≠ 1 || (minor ≠ 1 && minor ≠ 2) then fail
      skip
      directives fuel true handles
    | .tagHandle handle expansion =>
      if handles.any (·.1 = handle) then fail
      skip
      directives fuel versioned ((handle, expansion) :: handles)
    | _ => return handles

def skipDocumentEnds : Nat → Composing Unit
  | 0 => return
  | fuel + 1 => do
    if (← peek) = .documentEnd then
      skip
      skipDocumentEnds fuel

/-- The content of a document that is marked by dashes, which may be left out. -/
def markedRoot (fuel : Nat) : Composing Node := do
  match ← peek with
  | .version _ _ | .tagHandle _ _ | .documentStart | .documentEnd | .streamEnd => emptyNode
  | _ => node true false fuel

/-- A document. Directives need the mark after them. -/
def root (fuel : Nat) : Composing Node := do
  match ← peek with
  | .version _ _ | .tagHandle _ _ | .documentStart =>
    let given ← directives fuel false []
    let defaults := defaultHandles.filter fun (handle, _) => !given.any (·.1 = handle)
    modify fun c => { c with handles := given ++ defaults }
    if (← peek) ≠ .documentStart then fail
    skip
    markedRoot fuel
  | _ =>
    modify fun c => { c with handles := defaultHandles }
    node true false fuel

/-- The only document of a stream, which may be left out. -/
def stream (fuel : Nat) : Composing Node := do
  if (← peek) = .streamEnd then emptyNode
  else
    let found ← root fuel
    skipDocumentEnds fuel
    if (← peek) = .streamEnd then return found else fail

end Composing

/-- Puts a stream of at most one document together. Of any four calls inside each other one has read
a token, which bounds their depth. -/
def Document.ofTokens? (tokens : List Token) : Option Document := do
  let start : Composer := ⟨tokens, [], [], 0, [], 0⟩
  let (root, c) ← (Composing.stream (4 * tokens.length + 4)).run start
  let ordered := c.completed.mergeSort fun a b => a.1 ≤ b.1
  return ⟨root, ordered.map (·.2), c.size⟩

end Stepwise.Yaml
