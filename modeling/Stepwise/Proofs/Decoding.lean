import Mathlib.Data.List.Forall2
import Stepwise.Template.Decoding
import Stepwise.Template.Encoding

/-!
# Workflows read back from their values

A reading is faithful if it finds the values that the parts of a document show. With a faithful
reading the fields of a workflow and the metadata of its templates are found again by their names,
since no two fields share one and a field that is left out stands for nothing. The fields of a
template's type are always read from values, and so are the templates inside them. Values show
themselves, so a workflow is read back from its own value as it is.
-/

namespace Stepwise

theorem int64?_toInt (n : Int64) : int64? n.toInt = some n := by
  rw [int64?, if_pos ⟨n.minValue_le_toInt, n.toInt_le⟩, Int64.ofInt_toInt]

theorem uint32?_toNat (n : UInt32) : uint32? n.toNat = some n := by
  rw [uint32?, if_pos n.toNat_lt_size, UInt32.ofNat_toNat]

theorem uint64?_toNat (n : UInt64) : uint64? n.toNat = some n := by
  rw [uint64?, if_pos n.toNat_lt_size, UInt64.ofNat_toNat]

theorem TimeUnit.ofLabel?_symbol (unit : TimeUnit) :
    TimeUnit.ofLabel? (.name unit.symbol) = some unit := by
  cases unit <;> rfl

theorem mapM_eq_some_iff {α β : Type} {f : α → Option β} {as : List α} {bs : List β} :
    as.mapM f = some bs ↔ List.Forall₂ (fun a b => f a = some b) as bs := by
  induction as generalizing bs with
  | nil =>
    rw [List.mapM_nil, List.forall₂_nil_left_iff]
    exact ⟨fun same => (Option.some.inj same).symm, fun none => none ▸ rfl⟩
  | cons a as ih =>
    rw [List.mapM_cons, List.forall₂_cons_left_iff]
    constructor
    · intro found
      obtain ⟨b, here, found⟩ := Option.bind_eq_some_iff.mp found
      obtain ⟨later, rest, same⟩ := Option.bind_eq_some_iff.mp found
      exact ⟨b, later, here, ih.mp rest, (Option.some.inj same).symm⟩
    · rintro ⟨b, later, here, rest, rfl⟩
      rw [here, ih.mpr rest]
      rfl

section Fields

variable {τ α : Type} {shows : τ → Value → Prop} {name : String} {shown : List (String × τ)}
  {entries : List (String × Value)}

/-- Entries that show values, under the same names and in the same order. -/
def Shown (shows : τ → Value → Prop) : List (String × τ) → List (String × Value) → Prop :=
  List.Forall₂ fun e f => e.1 = f.1 ∧ shows e.2 f.2

/-- The value that stands under a name and nowhere else, if there is one. -/
def Holds (name : String) (value : Option Value) (entries : List (String × Value)) : Prop :=
  entries.filter (·.1 = name) = Value.field? name value

theorem Shown.filter (same : Shown shows shown entries) (p : String → Bool) :
    Shown shows (shown.filter (p ·.1)) (entries.filter (p ·.1)) :=
  List.rel_filter (fun _ _ related => iff_of_eq (congrArg (p · = true) related.1)) same

theorem Shown.lookup_none (same : Shown shows shown entries) (holds : Holds name none entries) :
    lookup name shown = some none := by
  have found := same.filter (· = name)
  rw [holds] at found
  rw [lookup, List.forall₂_nil_right_iff.mp found]

theorem Shown.lookup_some (same : Shown shows shown entries) {value : Value}
    (holds : Holds name (some value) entries) :
    ∃ t, lookup name shown = some (some t) ∧ shows t value := by
  have found := same.filter (· = name)
  rw [holds] at found
  obtain ⟨entry, rest, related, none, only⟩ := List.forall₂_cons_right_iff.mp found
  rw [List.forall₂_nil_right_iff.mp none] at only
  exact ⟨entry.2, by rw [lookup, only], related.2⟩

theorem Shown.required (same : Shown shows shown entries) {value : Value}
    (holds : Holds name (some value) entries) {read : τ → Option α} {x : α}
    (reads : ∀ t, shows t value → read t = some x) : required name read shown = some x := by
  obtain ⟨t, found, shows_t⟩ := same.lookup_some holds
  rw [Stepwise.required, found]
  exact reads t shows_t

theorem Shown.defaulted (same : Shown shows shown entries) {value : Value}
    (holds : Holds name (some value) entries) {read : τ → Option α} {x default : α}
    (reads : ∀ t, shows t value → read t = some x) :
    defaulted name default read shown = some x := by
  obtain ⟨t, found, shows_t⟩ := same.lookup_some holds
  rw [Stepwise.defaulted, found]
  exact reads t shows_t

theorem mem_field? {key : String} {value : Option Value} {e : String × Value}
    (mem : e ∈ Value.field? key value) : e.1 = key ∧ value = some e.2 := by
  obtain ⟨v, given, rfl⟩ := List.mem_map.mp mem
  exact ⟨rfl, Option.mem_toList.mp given⟩

theorem filter_field? (key name : String) (value : Option Value) :
    (Value.field? key value).filter (·.1 = name) =
      if key = name then Value.field? key value else [] := by
  split
  · next same =>
    exact List.filter_eq_self.mpr fun e mem => decide_eq_true ((mem_field? mem).1.trans same)
  · next different =>
    refine List.filter_eq_nil_iff.mpr fun e mem same => different ?_
    exact (mem_field? mem).1.symm.trans (of_decide_eq_true same)

end Fields

variable {τ : Type} {r : Reading τ} {shows : τ → Value → Prop}

/-- The reading finds what the parts of a document show. -/
structure Reading.Faithful (r : Reading τ) (shows : τ → Value → Prop) : Prop where
  text : ∀ {t s}, shows t (.str s) → r.text t = some s
  signed : ∀ {t i}, shows t (.int i) → r.signed t = some i
  unsigned : ∀ {t} {n : Nat}, shows t (.int n) → r.unsigned t = some n
  optional : ∀ {t v}, shows t v → v.isNull = false → r.optional t = some (some t)
  label : ∀ {t s}, shows t (.str s) → r.label t = some (.name s)
  fields : ∀ {t entries names}, shows t (.fields entries) → (∀ e ∈ entries, e.1 ∈ names) →
    ∃ shown, r.fields names t = some shown ∧ Shown shows shown entries
  value : ∀ {t v}, shows t v → r.value t = some v
  entries : ∀ {t entries}, shows t (.fields entries) →
    ∃ shown, r.entries t = some shown ∧ Shown shows shown entries
  items : ∀ {t vs}, shows t (.list vs) → ∃ ts, r.items t = some ts ∧ List.Forall₂ shows ts vs

namespace Reading.Faithful

variable (faithful : r.Faithful shows) {t : τ} {name : String} {shown : List (String × τ)}
  {entries : List (String × Value)}

include faithful

theorem int64 {n : Int64} (here : shows t (.int n.toInt)) : r.int64 t = some n := by
  rw [Reading.int64, faithful.signed here]
  exact int64?_toInt n

theorem uint32 {n : UInt32} (here : shows t (.ofNat n.toNat)) : r.uint32 t = some n := by
  rw [Reading.uint32, faithful.unsigned here]
  exact uint32?_toNat n

theorem uint64 {n : UInt64} (here : shows t (.ofNat n.toNat)) : r.uint64 t = some n := by
  rw [Reading.uint64, faithful.unsigned here]
  exact uint64?_toNat n

theorem unit {unit : TimeUnit} (here : shows t unit.encode) : r.unit t = some unit := by
  rw [Reading.unit, faithful.label here]
  exact TimeUnit.ofLabel?_symbol unit

theorem reminder {reminder : Reminder} (here : shows t reminder.encode) :
    r.reminder t = some reminder := by
  have known : ∀ e ∈ [("interval", Value.int reminder.interval.toInt), ("unit", reminder.unit.encode)],
      e.1 ∈ ["interval", "unit"] := by
    rw [List.forall_mem_cons, List.forall_mem_singleton]
    exact ⟨.head _, .tail _ (.head _)⟩
  obtain ⟨shown, read, same⟩ := faithful.fields here known
  have interval : required "interval" r.int64 shown = some reminder.interval := by
    refine same.required ?_ fun _ => faithful.int64
    rfl
  have unit : required "unit" r.unit shown = some reminder.unit := by
    refine same.required ?_ fun _ => faithful.unit
    rfl
  rw [Reading.reminder, read]
  simp only [Option.bind_eq_bind, Option.bind_some, interval, unit]
  rfl

/-- A field that is left out when there is nothing to say. -/
theorem orNothing {α : Type} {encode : α → Value} {read : τ → Option α} {x : Option α}
    (same : Shown shows shown entries) (holds : Holds name (x.map encode) entries)
    (something : ∀ y, (encode y).isNull = false)
    (reads : ∀ y t, shows t (encode y) → read t = some y) :
    defaulted name none (r.orNothing read) shown = some x := by
  cases x with
  | none => rw [Stepwise.defaulted, same.lookup_none holds]
  | some y =>
    refine same.defaulted holds fun t shows_t => ?_
    rw [Reading.orNothing, faithful.optional shows_t (something y)]
    simp only [Option.bind_eq_bind, Option.bind_some, reads y t shows_t]
    rfl

/-- What a template has beside the fields of its type. -/
theorem template (kind : TemplateKind) {id : Option UInt32} {image : Option String}
    {reminder : Option Reminder} (same : Shown shows shown entries)
    (at_id : Holds "id" (id.map fun n => .ofNat n.toNat) entries)
    (at_image : Holds "image" (image.map .str) entries)
    (at_timer : Holds "timer" (reminder.map Reminder.encode) entries) :
    r.template kind shown = some ⟨kind, id, image, reminder⟩ := by
  have id_read : defaulted "id" none (r.orNothing r.uint32) shown = some id :=
    faithful.orNothing same at_id (fun _ => rfl) fun _ _ => faithful.uint32
  have image_read : defaulted "image" none (r.orNothing r.text) shown = some image :=
    faithful.orNothing same at_image (fun _ => rfl) fun _ _ => faithful.text
  have reminder_read : defaulted "timer" none (r.orNothing r.reminder) shown = some reminder :=
    faithful.orNothing same at_timer (fun _ => rfl) fun _ _ => faithful.reminder
  rw [Reading.template]
  simp only [Option.bind_eq_bind, Option.bind_some, id_read, image_read, reminder_read]
  rfl

end Reading.Faithful

namespace Value

variable {names : List String}

theorem shown_of_eq {shown entries : List (String × Value)} (same : shown = entries) :
    Shown Eq shown entries :=
  same ▸ List.forall₂_same.mpr fun _ _ => ⟨rfl, rfl⟩

/-- The keys of a record as labels. -/
theorem labelled_fields (entries : List (String × Value)) :
    ((entries.map fun (key, value) => (Value.str key, value)).mapM fun (key, value) => do
      return (← Label.ofValue? key, value)) =
        some (entries.map fun (key, value) => (Label.name key, value)) := by
  refine mapM_eq_some_iff.mpr (List.forall₂_map_left_iff.mpr (List.forall₂_map_right_iff.mpr ?_))
  exact List.forall₂_same.mpr fun _ _ => rfl

theorem record?_fields (entries : List (String × Value)) (known : ∀ e ∈ entries, e.1 ∈ names) :
    record? names (fields entries) = some entries := by
  rw [fields, record?, labelled_fields, Option.bind_eq_bind, Option.bind_some, List.filterMap_map]
  refine congrArg some ((List.filterMap_congr fun e mem => ?_).trans List.filterMap_some)
  show ((Label.name e.1).field? names).map (·, e.2) = some e
  rw [Label.field?, if_pos (known e mem)]
  rfl

theorem entries?_fields (entries : List (String × Value)) :
    (fields entries).entries? = some entries := by
  refine mapM_eq_some_iff.mpr (List.forall₂_map_left_iff.mpr ?_)
  exact List.forall₂_same.mpr fun _ _ => rfl

theorem faithful_reading (isEmpty : Value → Bool) : (reading isEmpty).Faithful Eq where
  text := by rintro _ s rfl; rfl
  signed := by rintro _ i rfl; rfl
  unsigned := by rintro _ n rfl; rfl
  optional := by
    rintro v _ rfl something
    cases v <;> first | rfl | cases something
  label := by rintro _ s rfl; rfl
  fields := by
    rintro _ entries names rfl known
    exact ⟨entries, record?_fields entries known, shown_of_eq rfl⟩
  value := congrArg some
  entries := by
    rintro _ entries rfl
    exact ⟨entries, entries?_fields entries, shown_of_eq rfl⟩
  items := by
    rintro _ vs rfl
    exact ⟨vs, rfl, List.forall₂_same.mpr fun _ _ => rfl⟩

theorem faithful_outer : outer.Faithful Eq := faithful_reading isNull

theorem faithful_inner : inner.Faithful Eq := faithful_reading isNullOrEmpty

end Value

theorem TemplateKind.mem_encodeFields (kind : TemplateKind) :
    ∀ e ∈ kind.encodeFields, e.1 ∉ metadataNames := by
  cases kind <;> simp only [TemplateKind.encodeFields, List.forall_mem_cons] <;> decide

/-- What a template has beside the fields of its type. -/
def Template.metadata (t : Template) : List (String × Value) :=
  idField t.id ++ Value.field? "image" (t.image.map .str) ++ reminderField t.reminder

theorem Template.mem_metadata (t : Template) : ∀ e ∈ t.metadata, e.1 ∈ metadataNames := by
  intro e mem
  simp only [Template.metadata, List.mem_append] at mem
  rcases mem with (mem | mem) | mem <;> rw [(mem_field? mem).1] <;> decide

def Template.entries (t : Template) : List (String × Value) := t.kind.encodeFields ++ t.metadata

theorem mem_reminderField {reminder : Option Reminder} {e : String × Value}
    (mem : e ∈ reminderField reminder) : e.1 = "timer" ∧ ∃ r : Reminder, e.2 = r.encode := by
  obtain ⟨name, value⟩ := mem_field? mem
  obtain ⟨r, -, same⟩ := Option.map_eq_some_iff.mp value
  exact ⟨name, r, same.symm⟩

theorem Template.mem_entries_timer (t : Template) {e : String × Value} (mem : e ∈ t.entries)
    (timer : e.1 = "timer") : ∃ r : Reminder, e.2 = r.encode := by
  simp only [Template.entries, Template.metadata, List.mem_append] at mem
  rcases mem with mem | (mem | mem) | mem
  · exact absurd (timer ▸ by decide) (t.kind.mem_encodeFields e mem)
  · exact absurd ((mem_field? mem).1.symm.trans timer) (by decide)
  · exact absurd ((mem_field? mem).1.symm.trans timer) (by decide)
  · exact (mem_reminderField mem).2

theorem Template.encode_eq (t : Template) : t.encode = .fields t.entries := by
  obtain ⟨kind, id, image, reminder⟩ := t
  rw [Template.encode]
  rfl

/-- The metadata of a template stands among its fields. -/
theorem Reading.Faithful.template_entries (faithful : r.Faithful shows) (t : Template)
    {shown : List (String × τ)} (same : Shown shows shown t.entries) :
    r.template t.kind shown = some t := by
  have none (name : String) (known : name ∈ metadataNames) :
      t.kind.encodeFields.filter (·.1 = name) = [] := by
    refine List.filter_eq_nil_iff.mpr fun e mem found => t.kind.mem_encodeFields e mem ?_
    rwa [of_decide_eq_true found]
  have no_id := none "id" (by decide)
  have no_image := none "image" (by decide)
  have no_timer := none "timer" (by decide)
  obtain ⟨kind, id, image, reminder⟩ := t
  refine faithful.template kind same ?_ ?_ ?_ <;>
    simp [Holds, Template.entries, Template.metadata, idField, reminderField, filter_field?, no_id,
      no_image, no_timer]

/-- A field of a template under its name, as the reader sees it. -/
def Field.of (entry : String × Value) : Field :=
  ⟨.name entry.1, entry.2, sequenceOf entry.2, sequencesOf entry.2⟩

theorem fieldsOf_fields (entries : List (String × Value)) :
    fieldsOf (entries.map fun (key, value) => (.str key, value)) = some (entries.map Field.of) := by
  induction entries with
  | nil => rw [List.map_nil, fieldsOf, List.map_nil]
  | cons entry rest ih =>
    rw [List.map_cons, fieldsOf, ih]
    rfl

/-- What is not metadata is a field of the type. -/
theorem filter_entries (t : Template) :
    t.entries.filter (fun e => !decide (e.1 ∈ metadataNames)) = t.kind.encodeFields := by
  have all : t.kind.encodeFields.filter (fun e => !decide (e.1 ∈ metadataNames)) =
      t.kind.encodeFields := by
    refine List.filter_eq_self.mpr fun e mem => ?_
    rw [decide_eq_false (t.kind.mem_encodeFields e mem)]
    rfl
  have none : t.metadata.filter (fun e => !decide (e.1 ∈ metadataNames)) = [] := by
    refine List.filter_eq_nil_iff.mpr fun e mem => ?_
    rw [decide_eq_true (t.mem_metadata e mem)]
    exact Bool.noConfusion
  rw [Template.entries, List.filter_append, all, none, List.append_nil]

/-- A template is read back if the fields of its type are. -/
theorem Template.ofValue?_of_decode (t : Template)
    (decoded : TemplateKind.decode (t.kind.encodeFields.map Field.of) = some t.kind) :
    Template.ofValue? t.encode = some t := by
  have kinds : (t.entries.map Field.of).filter (fun f => !f.isMetadata) =
      t.kind.encodeFields.map Field.of := by
    rw [List.filter_map, ← filter_entries]
    rfl
  rw [t.encode_eq, Value.fields, Template.ofValue?, fieldsOf_fields]
  simp only [Option.bind_eq_bind, Option.bind_some, kinds, decoded]
  refine Value.faithful_inner.template_entries t (Value.shown_of_eq ?_)
  rw [List.filterMap_map]
  exact List.filterMap_some

-- The reader is run on the fields of each type. Numbers and lists are where it gets stuck: numbers
-- are read back by the lemmas above, and lists by induction.
mutual

theorem Template.ofValue?_encode : (t : Template) → Template.ofValue? t.encode = some t
  | ⟨kind, id, image, reminder⟩ =>
    Template.ofValue?_of_decode ⟨kind, id, image, reminder⟩ kind.decode_encodeFields

theorem TemplateKind.decode_encodeFields : (kind : TemplateKind) →
    TemplateKind.decode (kind.encodeFields.map Field.of) = some kind
  | .task text => by
    rw [TemplateKind.encodeFields]
    rfl
  | .condition text onYes onNo => by
    rw [TemplateKind.encodeFields]
    simp only [List.map_cons, List.map_nil, Field.of, sequenceOf, templatesOf_encodeAll onYes,
      templatesOf_encodeAll onNo]
    rfl
  | .counted times body => by
    rw [TemplateKind.encodeFields]
    simp only [List.map_cons, List.map_nil, Field.of, sequenceOf, templatesOf_encodeAll body]
    show (Value.inner.int64 (.int times.toInt)).bind
      (fun n => some (TemplateKind.counted n body)) = _
    rw [Value.faithful_inner.int64 rfl]
    rfl
  | .asked text loop body => by
    rw [TemplateKind.encodeFields]
    simp only [List.map_cons, List.map_nil, Field.of, sequenceOf, templatesOf_encodeAll body]
    cases loop <;> rfl
  | .parallel text choose branches => by
    rw [TemplateKind.encodeFields]
    simp only [List.map_cons, List.map_nil, Field.of, sequencesOf,
      sequencesIn_encodeBranches branches]
    show (Value.inner.uint64 (.ofNat choose.toNat)).bind
      (fun n => some (TemplateKind.parallel text n branches)) = _
    rw [Value.faithful_inner.uint64 rfl]
    rfl
  | .sleep value unit text silent => by
    rw [TemplateKind.encodeFields]
    simp only [List.map_cons, List.map_nil, Field.of]
    show (Value.inner.int64 (.int value.toInt)).bind (fun n => (Value.inner.unit unit.encode).bind
      fun u => some (TemplateKind.sleep n u text silent)) = _
    rw [Value.faithful_inner.int64 rfl, Value.faithful_inner.unit rfl]
    rfl

theorem templatesOf_encodeAll : (ts : List Template) → templatesOf (encodeAll ts) = some ts
  | [] => by rw [encodeAll, templatesOf]
  | t :: rest => by
    rw [encodeAll, templatesOf, t.ofValue?_encode, templatesOf_encodeAll rest]
    rfl

theorem sequencesIn_encodeBranches : (branches : List (List Template)) →
    sequencesIn (encodeBranches branches) = some branches
  | [] => by rw [encodeBranches, sequencesIn]
  | branch :: rest => by
    rw [encodeBranches, sequencesIn, sequenceOf, templatesOf_encodeAll branch,
      sequencesIn_encodeBranches rest]
    rfl

end

theorem encodeAll_eq_map (ts : List Template) : encodeAll ts = ts.map Template.encode := by
  induction ts with
  | nil => rw [encodeAll, List.map_nil]
  | cons t rest ih => rw [encodeAll, ih, List.map_cons]

def Workflow.entries (w : Workflow) : List (String × Value) :=
  Value.field? "description" (some (.str w.description)) ++ idField w.id ++
    reminderField w.reminder ++ Value.field? "blocks" (some (.list (encodeAll w.blocks)))

theorem Workflow.encode_eq (w : Workflow) : w.encode = .fields w.entries := rfl

theorem Workflow.mem_entries (w : Workflow) :
    ∀ e ∈ w.entries, e.1 ∈ ["description", "id", "timer", "blocks"] := by
  intro e mem
  simp only [Workflow.entries, List.mem_append] at mem
  rcases mem with ((mem | mem) | mem) | mem <;> rw [(mem_field? mem).1] <;> decide

namespace Reading.Faithful

variable (faithful : r.Faithful shows)

include faithful

/-- A template of the workflow's own list. -/
theorem outerTemplate {t : Template} {part : τ} (here : shows part t.encode) :
    r.outerTemplate part = some t := by
  rw [t.encode_eq] at here
  obtain ⟨shown, read, same⟩ := faithful.entries here
  have others : Shown shows (shown.filter fun e => !decide (e.1 ∈ metadataNames))
      t.kind.encodeFields := filter_entries t ▸ same.filter fun name => !decide (name ∈ metadataNames)
  have values : (shown.filter fun e => !decide (e.1 ∈ metadataNames)).mapM
      (fun e => return (Value.str e.1, ← r.value e.2)) =
        some (t.kind.encodeFields.map fun (key, v) => (.str key, v)) := by
    refine mapM_eq_some_iff.mpr (List.forall₂_map_right_iff.mpr (others.imp ?_))
    rintro e f ⟨name, here⟩
    rw [faithful.value here, name]
    rfl
  refine Option.bind_eq_some_iff.mpr ⟨shown, read, ?_⟩
  exact Option.bind_eq_some_iff.mpr ⟨_, values, Option.bind_eq_some_iff.mpr
    ⟨_, fieldsOf_fields _, Option.bind_eq_some_iff.mpr
      ⟨_, t.kind.decode_encodeFields, faithful.template_entries t same⟩⟩⟩

theorem outerTemplates {ts : List Template} {part : τ} (here : shows part (.list (encodeAll ts))) :
    r.outerTemplates part = some ts := by
  rw [encodeAll_eq_map] at here
  obtain ⟨parts, read, same⟩ := faithful.items here
  rw [Reading.outerTemplates, read]
  refine mapM_eq_some_iff.mpr ((List.forall₂_map_right_iff.mp same).imp ?_)
  exact fun _ _ => faithful.outerTemplate

theorem workflow {w : Workflow} {part : τ} (here : shows part w.encode) :
    r.workflow part = some w := by
  rw [w.encode_eq] at here
  obtain ⟨shown, read, same⟩ := faithful.fields here w.mem_entries
  have description_read : defaulted "description" "" r.text shown = some w.description := by
    refine same.defaulted ?_ fun _ => faithful.text
    simp [Holds, Workflow.entries, idField, reminderField, filter_field?]
  have id_read : defaulted "id" none (r.orNothing r.uint32) shown = some w.id := by
    refine faithful.orNothing same ?_ (fun _ => rfl) fun _ _ => faithful.uint32
    simp [Holds, Workflow.entries, idField, reminderField, filter_field?]
  have reminder_read : defaulted "timer" none (r.orNothing r.reminder) shown = some w.reminder := by
    refine faithful.orNothing same ?_ (fun _ => rfl) fun _ _ => faithful.reminder
    simp [Holds, Workflow.entries, idField, reminderField, filter_field?]
  have blocks_read : defaulted "blocks" [] r.outerTemplates shown = some w.blocks := by
    refine same.defaulted ?_ fun _ => faithful.outerTemplates
    simp [Holds, Workflow.entries, idField, reminderField, filter_field?]
  rw [Reading.workflow, read]
  simp only [Option.bind_eq_bind, Option.bind_some, description_read, id_read, reminder_read,
    blocks_read]
  rfl

end Reading.Faithful

theorem Value.workflow?_encode (w : Workflow) : w.encode.workflow? = some w :=
  faithful_outer.workflow rfl

end Stepwise
