import Stepwise.Template
import Stepwise.Value

/-!
# Templates from documents

A document of any kind is read through a `Reading`, which says how it shows texts, numbers, fields
and names. Fields may come in any order and unknown ones are passed over, but a known field given
twice, a missing one without a default, or a number that does not fit makes the document unreadable.

The fields of a template's type are always read from values. Inside them, a field or a name may also
be given by its position among those that are known.
-/

namespace Stepwise

/-- A field or one of several cases, referred to by its name or by its position. -/
inductive Label where
  | name (s : String)
  | position (n : Nat)
  deriving DecidableEq, Repr

namespace Label

/-- The place of a label among names; each place may have several spellings. -/
def place? (spellings : List (List String)) : Label → Option Nat
  | .name s => spellings.findIdx? (s ∈ ·)
  | .position n => if n < spellings.length then some n else none

/-- The name of a field that the label refers to. -/
def field? (names : List String) : Label → Option String
  | .name s => if s ∈ names then some s else none
  | .position n => names[n]?

def ofValue? : Value → Option Label
  | .str s => some (.name s)
  | .int (.ofNat n) => some (.position n)
  | _ => none

end Label

/-- How a kind of document shows the things that a workflow is made of. -/
structure Reading (τ : Type) where
  text : τ → Option String
  signed : τ → Option Int
  unsigned : τ → Option Nat
  /-- Nothing at all, or something that is still to be read. -/
  optional : τ → Option (Option τ)
  /-- One of several cases that carry no data. -/
  label : τ → Option Label
  /-- The known fields of a record. -/
  fields : List String → τ → Option (List (String × τ))
  /-- All that is there, whatever it is. -/
  value : τ → Option Value
  /-- The entries of a map, all of whose keys are texts. -/
  entries : τ → Option (List (String × τ))
  items : τ → Option (List τ)

/-- The value of a field, if there is one; unreadable if it is given twice. -/
def lookup {τ : Type} (name : String) (entries : List (String × τ)) : Option (Option τ) :=
  match entries.filter (·.1 = name) with
  | [] => some none
  | [entry] => some (some entry.2)
  | _ => none

def required {τ α : Type} (name : String) (read : τ → Option α) (entries : List (String × τ)) :
    Option α :=
  match lookup name entries with
  | some (some value) => read value
  | _ => none

def defaulted {τ α : Type} (name : String) (default : α) (read : τ → Option α)
    (entries : List (String × τ)) : Option α :=
  match lookup name entries with
  | some (some value) => read value
  | some none => some default
  | none => none

def int64? (i : Int) : Option Int64 :=
  if Int64.minValue.toInt ≤ i ∧ i ≤ Int64.maxValue.toInt then some (.ofInt i) else none

def uint64? (n : Nat) : Option UInt64 := if n < UInt64.size then some (.ofNat n) else none

def uint32? (n : Nat) : Option UInt32 := if n < UInt32.size then some (.ofNat n) else none

def TimeUnit.ofLabel? (l : Label) : Option TimeUnit :=
  match l.place? [["s", "seconds"], ["m", "minutes"], ["h", "hours"]] with
  | some 0 => some .seconds
  | some 1 => some .minutes
  | some 2 => some .hours
  | _ => none

def LoopKind.ofLabel? (l : Label) : Option LoopKind :=
  match l.place? [["while"], ["until"]] with
  | some 0 => some .whileYes
  | some 1 => some .untilYes
  | _ => none

namespace Reading

variable {τ : Type} (r : Reading τ)

def int64 (t : τ) : Option Int64 := r.signed t >>= int64?

def uint32 (t : τ) : Option UInt32 := r.unsigned t >>= uint32?

def uint64 (t : τ) : Option UInt64 := r.unsigned t >>= uint64?

def unit (t : τ) : Option TimeUnit := r.label t >>= TimeUnit.ofLabel?

def loop (t : τ) : Option LoopKind := r.label t >>= LoopKind.ofLabel?

def orNothing {α : Type} (read : τ → Option α) (t : τ) : Option (Option α) := do
  match ← r.optional t with
  | none => return none
  | some t => return some (← read t)

def reminder (t : τ) : Option Reminder := do
  let entries ← r.fields ["interval", "unit"] t
  return ⟨← required "interval" r.int64 entries, ← required "unit" r.unit entries⟩

/-- What every template may have beside the fields of its type. -/
def template (kind : TemplateKind) (entries : List (String × τ)) : Option Template := do
  let id ← defaulted "id" none (r.orNothing r.uint32) entries
  let image ← defaulted "image" none (r.orNothing r.text) entries
  let reminder ← defaulted "timer" none (r.orNothing r.reminder) entries
  return ⟨kind, id, image, reminder⟩

end Reading

namespace Value

def text? : Value → Option String
  | .str s => some s
  | _ => none

def signed? : Value → Option Int
  | .int i => some i
  | .minusZero => some 0
  | _ => none

def unsigned? : Value → Option Nat
  | .int (.ofNat n) => some n
  | .minusZero => some 0
  | _ => none

def bool? : Value → Option Bool
  | .bool b => some b
  | _ => none

def optional? : Value → Option (Option Value)
  | .null => some none
  | v => some (some v)

/-- A case is its name, or a map from it to something empty. -/
def label? (isEmpty : Value → Bool) : Value → Option Label
  | .str s => some (.name s)
  | .map [(key, value)] => if isEmpty value then Label.ofValue? key else none
  | _ => none

/-- A record is a map, or a list of its fields in order of which the last may be missing. -/
def record? (names : List String) : Value → Option (List (String × Value))
  | .map entries => do
    let labelled ← entries.mapM fun (key, value) => return (← Label.ofValue? key, value)
    return labelled.filterMap fun (label, value) => (label.field? names).map (·, value)
  | .list items => if items.length ≤ names.length then some (names.zip items) else none
  | _ => none

def entries? : Value → Option (List (String × Value))
  | .map entries => entries.mapM fun (key, value) => return (← key.text?, value)
  | _ => none

def items? : Value → Option (List Value)
  | .list items => some items
  | _ => none

def reading (isEmpty : Value → Bool) : Reading Value where
  text := text?
  signed := signed?
  unsigned := unsigned?
  optional := optional?
  label := label? isEmpty
  fields := record?
  value := some
  entries := entries?
  items := items?

def isNull : Value → Bool
  | .null => true
  | _ => false

def isNullOrEmpty : Value → Bool
  | .null | .map [] => true
  | _ => false

/-- How the outer parts of a document of values are read. -/
def outer : Reading Value := reading isNull

/-- How the parts inside the fields of a template's type are read. -/
def inner : Reading Value := reading isNullOrEmpty

end Value

/-- A field of a template's type, with what its value would be as a sequence of templates and as a
list of such sequences. -/
structure Field where
  label : Label
  value : Value
  sequence : Option (List Template)
  sequences : Option (List (List Template))

namespace TemplateKind

/-- The fields of each type. -/
def fieldNames : List (List String) :=
  [["text"], ["condition", "then", "else"], ["times", "body"], ["condition", "kind", "body"],
    ["text", "choose", "branches"], ["value", "unit", "text", "disable_notification"]]

def typeNames : List (List String) :=
  [["task"], ["if"], ["repeat_times"], ["repeat_condition"], ["parallel_or"], ["timer_sleep"]]

/-- The fields of one type, under their names. -/
def named (place : Nat) (fields : List Field) : List (String × Field) :=
  fields.filterMap fun f => (f.label.field? (fieldNames.getD place [])).map (·, f)

def ofFields? (place : Nat) (fields : List Field) : Option TemplateKind :=
  let entries := named place fields
  let text (f : Field) := f.value.text?
  match place with
  | 0 => do return .task (← required "text" text entries)
  | 1 => do
    return .condition (← required "condition" text entries)
      (← defaulted "then" [] Field.sequence entries) (← defaulted "else" [] Field.sequence entries)
  | 2 => do
    return .counted (← required "times" (fun f => Value.inner.int64 f.value) entries)
      (← defaulted "body" [] Field.sequence entries)
  | 3 => do
    return .asked (← required "condition" text entries)
      (← required "kind" (fun f => Value.inner.loop f.value) entries)
      (← defaulted "body" [] Field.sequence entries)
  | 4 => do
    return .parallel (← defaulted "text" "" text entries)
      (← required "choose" (fun f => Value.inner.uint64 f.value) entries)
      (← defaulted "branches" [] Field.sequences entries)
  | 5 => do
    return .sleep (← required "value" (fun f => Value.inner.int64 f.value) entries)
      (← required "unit" (fun f => Value.inner.unit f.value) entries)
      (← defaulted "text" "" text entries)
      (← defaulted "disable_notification" false (fun f => f.value.bool?) entries)
  | _ => none

/-- Reads the fields of a template: its type and the fields of that type. -/
def decode (fields : List Field) : Option TemplateKind := do
  let isType (f : Field) := f.label = .name "type"
  match fields.filter isType with
  | [f] =>
    let place ← (← Label.ofValue? f.value).place? typeNames
    ofFields? place (fields.filter fun f => !isType f)
  | _ => none

end TemplateKind

def metadataNames : List String := ["id", "image", "timer"]

def Field.isMetadata (f : Field) : Bool :=
  match f.label with
  | .name s => s ∈ metadataNames
  | .position _ => false

mutual

/-- Reads a template inside the fields of another one. -/
def Template.ofValue? : Value → Option Template
  | .map entries => do
    let fields ← fieldsOf entries
    let kind ← TemplateKind.decode (fields.filter fun f => !f.isMetadata)
    let metadata := fields.filterMap fun f =>
      match f.label with
      | .name s => some (s, f.value)
      | .position _ => none
    Value.inner.template kind metadata
  | _ => none

def fieldsOf : List (Value × Value) → Option (List Field)
  | [] => some []
  | (key, value) :: rest => do
    let label ← Label.ofValue? key
    let fields ← fieldsOf rest
    return ⟨label, value, sequenceOf value, sequencesOf value⟩ :: fields

def sequenceOf : Value → Option (List Template)
  | .list items => templatesOf items
  | _ => none

def templatesOf : List Value → Option (List Template)
  | [] => some []
  | item :: rest => do return (← Template.ofValue? item) :: (← templatesOf rest)

def sequencesOf : Value → Option (List (List Template))
  | .list items => sequencesIn items
  | _ => none

def sequencesIn : List Value → Option (List (List Template))
  | [] => some []
  | item :: rest => do return (← sequenceOf item) :: (← sequencesIn rest)

end

namespace Reading

variable {τ : Type} (r : Reading τ)

/-- Reads a template of a workflow's own list, where the metadata is read as the document shows it
and all else is first taken as values. -/
def outerTemplate (t : τ) : Option Template := do
  let entries ← r.entries t
  let others := entries.filter fun (name, _) => !(name ∈ metadataNames)
  let values ← others.mapM fun (name, t) => return (Value.str name, ← r.value t)
  let kind ← TemplateKind.decode (← fieldsOf values)
  r.template kind entries

def outerTemplates (t : τ) : Option (List Template) := do (← r.items t).mapM r.outerTemplate

def workflow (t : τ) : Option Workflow := do
  let entries ← r.fields ["description", "id", "timer", "blocks"] t
  let description ← defaulted "description" "" r.text entries
  let id ← defaulted "id" none (r.orNothing r.uint32) entries
  let reminder ← defaulted "timer" none (r.orNothing r.reminder) entries
  let blocks ← defaulted "blocks" [] r.outerTemplates entries
  return ⟨description, id, reminder, blocks⟩

end Reading

namespace Value

def template? (v : Value) : Option Template := outer.outerTemplate v

def templates? (v : Value) : Option (List Template) := outer.outerTemplates v

def workflow? (v : Value) : Option Workflow := outer.workflow v

end Value

end Stepwise
