import Stepwise.Proofs.Decoding
import Stepwise.Template.Document

/-!
# Values in documents

If a document has a value and no tags, then the typed reading is faithful to it: a text is found
whatever it looks like, an integer is found because it stands there plainly, and nothing that is
there is taken for nothing. Where the value of a workflow shows in full there is no alias to follow,
so only its depth counts.
-/

namespace Stepwise

mutual

/-- How deep the collections of a value are nested. -/
def Value.depth : Value → Nat
  | .list items => itemsDepth items + 1
  | .map entries => entriesDepth entries + 1
  | _ => 0

def itemsDepth : List Value → Nat
  | [] => 0
  | item :: rest => max item.depth (itemsDepth rest)

def entriesDepth : List (Value × Value) → Nat
  | [] => 0
  | (key, value) :: rest => max (max key.depth value.depth) (entriesDepth rest)

end

theorem depth_le_itemsDepth {v : Value} {items : List Value} (mem : v ∈ items) :
    v.depth ≤ itemsDepth items := by
  induction items with
  | nil => cases mem
  | cons item rest ih =>
    rw [itemsDepth]
    rcases List.mem_cons.mp mem with rfl | later
    · exact Nat.le_max_left _ _
    · exact Nat.le_trans (ih later) (Nat.le_max_right _ _)

theorem depth_le_entriesDepth {e : Value × Value} {entries : List (Value × Value)}
    (mem : e ∈ entries) : e.1.depth ≤ entriesDepth entries ∧ e.2.depth ≤ entriesDepth entries := by
  induction entries with
  | nil => cases mem
  | cons entry rest ih =>
    rw [entriesDepth]
    rcases List.mem_cons.mp mem with rfl | later
    · omega
    · have := ih later
      omega

theorem depth_lt_fields {e : String × Value} {entries : List (String × Value)} (mem : e ∈ entries) :
    e.2.depth < (Value.fields entries).depth := by
  rw [Value.fields, Value.depth]
  refine Nat.lt_succ_of_le (depth_le_entriesDepth (e := (.str e.1, e.2)) ?_).2
  exact List.mem_map.mpr ⟨e, mem, rfl⟩

theorem depth_lt_list {v : Value} {items : List Value} (mem : v ∈ items) :
    v.depth < (Value.list items).depth := by
  rw [Value.depth]
  exact Nat.lt_succ_of_le (depth_le_itemsDepth mem)

namespace Yaml

mutual

/-- No part of the node has a tag. -/
def Node.untagged : Node → Bool
  | .scalar s => s.tag.isNone
  | .list tag items => tag.isNone && allUntagged items
  | .map tag entries => tag.isNone && entriesUntagged entries
  | .alias _ => true

def allUntagged : List Node → Bool
  | [] => true
  | node :: rest => node.untagged && allUntagged rest

def entriesUntagged : List (Node × Node) → Bool
  | [] => true
  | (key, value) :: rest => key.untagged && value.untagged && entriesUntagged rest

end

/-- The node has the value and no tags. -/
def Node.Shows (node : Node) (v : Value) : Prop :=
  node.untagged = true ∧ node.value? = some v

theorem allUntagged_iff (items : List Node) :
    allUntagged items = true ↔ ∀ node ∈ items, node.untagged = true := by
  induction items with
  | nil => exact iff_of_true rfl fun _ mem => absurd mem List.not_mem_nil
  | cons node rest ih => rw [allUntagged, Bool.and_eq_true, ih, List.forall_mem_cons]

theorem entriesUntagged_iff (entries : List (Node × Node)) :
    entriesUntagged entries = true ↔
      ∀ e ∈ entries, e.1.untagged = true ∧ e.2.untagged = true := by
  induction entries with
  | nil => exact iff_of_true rfl fun _ mem => absurd mem List.not_mem_nil
  | cons entry rest ih =>
    rw [entriesUntagged, Bool.and_eq_true, Bool.and_eq_true, ih, List.forall_mem_cons]

theorem nodeValues?_eq (items : List Node) : nodeValues? items = items.mapM Node.value? := by
  induction items with
  | nil => rw [nodeValues?, List.mapM_nil, Option.pure_def]
  | cons node rest ih => rw [nodeValues?, ih, List.mapM_cons]

theorem entryValues?_eq (entries : List (Node × Node)) :
    entryValues? entries = entries.mapM fun e => return (← e.1.value?, ← e.2.value?) := by
  induction entries with
  | nil => rw [entryValues?, List.mapM_nil, Option.pure_def]
  | cons entry rest ih =>
    rw [entryValues?, ih, List.mapM_cons]
    cases entry.1.value? <;> cases entry.2.value? <;> rfl

/-- The values that a plain scalar may have. -/
theorem plainValue?_cases {s : String} {v : Value} (value : plainValue? s = some v) :
    v = .null ∨ (∃ b, v = .bool b) ∨ v = .minusZero ∨
      (∃ i, v = .int i ∧ signed? s.toList = some i ∧ (i = 0 → s.toList.head? ≠ some '-')) ∨
      (∃ x, v = .real x) ∨ v = .str s := by
  have number : some (((real? s).map Value.real).getD (.str s)) = some v →
      (∃ x, v = .real x) ∨ v = .str s := by
    intro same
    cases read : real? s with
    | none =>
      rw [read] at same
      exact Or.inr (Option.some.inj same).symm
    | some x =>
      rw [read] at same
      exact Or.inl ⟨x, (Option.some.inj same).symm⟩
  unfold plainValue? at value
  split at value
  · exact Or.inl (Option.some.inj value).symm
  · split at value
    · next b _ => exact Or.inr (Or.inl ⟨b, (Option.some.inj value).symm⟩)
    · next i _ read =>
      split at value
      · unfold integerValue at value
        split at value
        · exact Or.inr (Or.inr (Or.inl (Option.some.inj value).symm))
        · next no =>
          refine Or.inr (Or.inr (Or.inr (Or.inl ⟨i, (Option.some.inj value).symm, read, ?_⟩)))
          intro zero minus
          rw [decide_eq_true zero, decide_eq_true minus] at no
          exact no rfl
      · split at value
        · cases value
        · exact Or.inr (Or.inr (Or.inr (Or.inr (number value))))
    · split at value
      · exact Or.inr (Or.inr (Or.inr (Or.inr (Or.inr (Option.some.inj value).symm))))
      · exact Or.inr (Or.inr (Or.inr (Or.inr (number value))))

/-- A scalar without a tag that has a text as its value has that text. -/
theorem untagged?_str {c : Scalar} {s : String} (value : c.untagged? = some (.str s)) :
    c.text = s := by
  unfold Scalar.untagged? at value
  split at value
  · rcases plainValue?_cases value with none | ⟨b, bool⟩ | zero | ⟨i, int, -⟩ | ⟨x, real⟩ | same
    · cases none
    · cases bool
    · cases zero
    · cases int
    · cases real
    · exact (Value.str.inj same).symm
  · exact Value.str.inj (Option.some.inj value)

/-- An integer is written plainly, and zero without a minus sign. -/
theorem untagged?_int {c : Scalar} {i : Int} (value : c.untagged? = some (.int i)) :
    c.style = .plain ∧ signed? c.text.toList = some i ∧
      (i = 0 → c.text.toList.head? ≠ some '-') := by
  unfold Scalar.untagged? at value
  split at value
  · next plain =>
    rcases plainValue?_cases value with none | ⟨b, bool⟩ | zero | ⟨j, int, read⟩ | ⟨x, real⟩ | same
    · cases none
    · cases bool
    · cases zero
    · cases int
      exact ⟨plain, read⟩
    · cases real
    · cases same
  · cases value

/-- A scalar is no collection. -/
theorem untagged?_flat {c : Scalar} {v : Value} (value : c.untagged? = some v) :
    (∀ vs, v ≠ .list vs) ∧ ∀ entries, v ≠ .map entries := by
  unfold Scalar.untagged? at value
  split at value
  · rcases plainValue?_cases value with rfl | ⟨b, rfl⟩ | rfl | ⟨i, rfl, -⟩ | ⟨x, rfl⟩ | rfl <;>
      exact ⟨nofun, nofun⟩
  · cases value
    exact ⟨nofun, nofun⟩

theorem untagged?_something {c : Scalar} {v : Value} (value : c.untagged? = some v)
    (something : v.isNull = false) (plain : c.style = .plain) :
    (c.text.isEmpty || isNullText c.text) = false := by
  unfold Scalar.untagged? plainValue? at value
  rw [if_pos plain] at value
  split at value
  · cases value
    cases something
  · next no => exact Bool.eq_false_iff.mpr no

theorem Node.Shows.cases {node : Node} {v : Value} (here : node.Shows v) :
    (∃ text style, node = .scalar ⟨text, style, none⟩ ∧
      Scalar.untagged? ⟨text, style, none⟩ = some v) ∨
    (∃ items vs, node = .list none items ∧ v = .list vs ∧ List.Forall₂ Node.Shows items vs) ∨
    ∃ pairs entries, node = .map none pairs ∧ v = .map entries ∧
      List.Forall₂ (fun p e => p.1.Shows e.1 ∧ p.2.Shows e.2) pairs entries := by
  obtain ⟨untagged, value⟩ := here
  rcases node with ⟨text, style, tag⟩ | ⟨tag, items⟩ | ⟨tag, pairs⟩ | anchor
  · obtain rfl : tag = none := Option.isNone_iff_eq_none.mp untagged
    exact Or.inl ⟨text, style, rfl, value⟩
  · rw [Node.untagged, Bool.and_eq_true, Option.isNone_iff_eq_none, allUntagged_iff] at untagged
    obtain ⟨rfl, untagged⟩ := untagged
    obtain ⟨vs, values, rfl⟩ := Option.map_eq_some_iff.mp value
    rw [nodeValues?_eq, mapM_eq_some_iff] at values
    exact Or.inr (Or.inl ⟨items, vs, rfl, rfl, (List.forall₂_and_left _ _).mpr ⟨untagged, values⟩⟩)
  · rw [Node.untagged, Bool.and_eq_true, Option.isNone_iff_eq_none, entriesUntagged_iff] at untagged
    obtain ⟨rfl, untagged⟩ := untagged
    obtain ⟨entries, values, rfl⟩ := Option.map_eq_some_iff.mp value
    rw [entryValues?_eq, mapM_eq_some_iff] at values
    refine Or.inr (Or.inr ⟨pairs, entries, rfl, rfl, ?_⟩)
    refine ((List.forall₂_and_left _ _).mpr ⟨untagged, values⟩).imp ?_
    rintro ⟨key, value⟩ entry ⟨⟨key_untagged, value_untagged⟩, read⟩
    obtain ⟨k, key_read, read⟩ := Option.bind_eq_some_iff.mp read
    obtain ⟨v, value_read, read⟩ := Option.bind_eq_some_iff.mp read
    rw [← Option.some.inj read]
    exact ⟨⟨key_untagged, key_read⟩, value_untagged, value_read⟩
  · cases value

theorem shows_str {node : Node} {s : String} (here : node.Shows (.str s)) :
    ∃ style, node = .scalar ⟨s, style, none⟩ := by
  rcases here.cases with ⟨text, style, rfl, value⟩ | ⟨_, _, -, list, -⟩ | ⟨_, _, -, map, -⟩
  · exact ⟨style, by rw [← untagged?_str value]⟩
  · cases list
  · cases map

theorem shows_int {node : Node} {i : Int} (here : node.Shows (.int i)) :
    ∃ text, node = .scalar ⟨text, .plain, none⟩ ∧ signed? text.toList = some i ∧
      (i = 0 → text.toList.head? ≠ some '-') := by
  rcases here.cases with ⟨text, style, rfl, value⟩ | ⟨_, _, -, list, -⟩ | ⟨_, _, -, map, -⟩
  · obtain ⟨rfl, read⟩ := untagged?_int value
    exact ⟨text, rfl, read⟩
  · cases list
  · cases map

theorem shows_list {node : Node} {vs : List Value} (here : node.Shows (.list vs)) :
    ∃ items, node = .list none items ∧ List.Forall₂ Node.Shows items vs := by
  rcases here.cases with ⟨_, _, -, value⟩ | ⟨items, _, rfl, list, same⟩ | ⟨_, _, -, map, -⟩
  · exact absurd rfl ((untagged?_flat value).1 vs)
  · cases list
    exact ⟨items, rfl, same⟩
  · cases map

/-- The entries of a record as a node shows them. -/
def ShownPairs (pairs : List (Node × Node)) (entries : List (String × Value)) : Prop :=
  List.Forall₂ (fun p e => (∃ style, p.1 = .scalar ⟨e.1, style, none⟩) ∧ p.2.Shows e.2) pairs entries

theorem shows_fields {node : Node} {entries : List (String × Value)}
    (here : node.Shows (.fields entries)) :
    ∃ pairs, node = .map none pairs ∧ ShownPairs pairs entries := by
  rcases here.cases with ⟨_, _, -, value⟩ | ⟨_, _, -, list, -⟩ | ⟨pairs, _, rfl, map, same⟩
  · exact absurd rfl ((untagged?_flat value).2 _)
  · cases list
  · cases map
    refine ⟨pairs, rfl, (List.forall₂_map_right_iff.mp same).imp ?_⟩
    rintro p e ⟨key, value⟩
    exact ⟨shows_str key, value⟩

/-- A number that is not negative has no minus sign. -/
theorem unsigned?_of_signed? {cs : List Char} {n : Nat} (read : signed? cs = some (n : Int))
    (positive : (n : Int) = 0 → cs.head? ≠ some '-') : unsigned? cs = some n := by
  unfold signed? at read
  split at read
  · obtain ⟨_, digits, negative⟩ := Option.map_eq_some_iff.mp read
    obtain ⟨m, -, lifted⟩ := Option.bind_eq_some_iff.mp digits
    cases lifted
    exact absurd rfl (positive (by omega))
  · obtain ⟨m, found, same⟩ := Option.map_eq_some_iff.mp read
    rw [found, Int.ofNat.inj same]

theorem text?_of_shows {node : Node} {s : String} (here : node.Shows (.str s)) :
    node.text? = some s := by
  obtain ⟨style, rfl⟩ := shows_str here
  rfl

theorem entries?_of_shows {node : Node} {entries : List (String × Value)}
    (here : node.Shows (.fields entries)) :
    ∃ shown, node.entries? = some shown ∧ Shown Node.Shows shown entries := by
  obtain ⟨pairs, rfl, same⟩ := shows_fields here
  clear here
  rw [Node.entries?]
  induction same with
  | nil => exact ⟨[], rfl, .nil⟩
  | @cons pair entry _ _ related _ ih =>
    obtain ⟨key, value⟩ := pair
    obtain ⟨⟨style, rfl⟩, value_shown⟩ := related
    obtain ⟨shown, read, same⟩ := ih
    refine ⟨(entry.1, value) :: shown, ?_, .cons ⟨rfl, value_shown⟩ same⟩
    rw [List.mapM_cons, read]
    rfl

theorem faithful_reading : reading.Faithful Node.Shows where
  text := text?_of_shows
  signed := by
    rintro node i here
    obtain ⟨text, rfl, read, -⟩ := shows_int here
    exact read
  unsigned := by
    rintro node n here
    obtain ⟨text, rfl, read, positive⟩ := shows_int here
    exact unsigned?_of_signed? read positive
  optional := by
    rintro node v here something
    rcases here.cases with ⟨text, style, rfl, value⟩ | ⟨_, _, rfl, -, -⟩ | ⟨_, _, rfl, -, -⟩
    · by_cases plain : style = .plain
      · have full : (text.isEmpty || isNullText text) = false :=
          untagged?_something value something plain
        subst plain
        show (if (text.isEmpty || isNullText text) = true then some none else _) = _
        rw [full]
        rfl
      · exact if_pos plain
    · rfl
    · rfl
  label := by
    rintro node s here
    obtain ⟨style, rfl⟩ := shows_str here
    rfl
  fields := by
    rintro node entries names here known
    obtain ⟨shown, read, same⟩ := entries?_of_shows here
    have all : entries.filter (fun e => decide (e.1 ∈ names)) = entries :=
      List.filter_eq_self.mpr fun e mem => decide_eq_true (known e mem)
    refine ⟨shown.filter fun e => decide (e.1 ∈ names), ?_,
      all ▸ same.filter fun name => decide (name ∈ names)⟩
    show node.record? names = _
    rw [Node.record?, read]
    rfl
  value := And.right
  entries := entries?_of_shows
  items := by
    rintro node vs here
    obtain ⟨items, rfl, same⟩ := shows_list here
    exact ⟨items, rfl, same⟩

section Expansion

variable {m : Type → Type} [Monad m] [LawfulMonad m] {α : Type}

theorem mapM_eq_pure {f : α → m α} {as : List α} (same : ∀ a ∈ as, f a = pure a) :
    as.mapM f = pure as := by
  induction as with
  | nil => exact List.mapM_nil
  | cons a rest ih =>
    rw [List.forall_mem_cons] at same
    rw [List.mapM_cons, same.1, ih same.2, pure_bind, pure_bind]

theorem filterMapM_eq_pure {f : α → m (Option α)} {as : List α}
    (same : ∀ a ∈ as, f a = pure (some a)) : as.filterMapM f = pure as := by
  induction as with
  | nil => exact List.filterMapM_nil
  | cons a rest ih =>
    rw [List.forall_mem_cons] at same
    rw [List.filterMapM_cons, same.1, ih same.2, pure_bind]
    exact pure_bind rest _

end Expansion

theorem exists_of_forall₂ {α β : Type} {R : α → β → Prop} {as : List α} {bs : List β}
    (same : List.Forall₂ R as bs) {a : α} (mem : a ∈ as) : ∃ b ∈ bs, R a b := by
  induction same with
  | nil => cases mem
  | cons related _ ih =>
    rcases List.mem_cons.mp mem with rfl | later
    · exact ⟨_, List.mem_cons_self, related⟩
    · obtain ⟨b, found, related⟩ := ih later
      exact ⟨b, List.mem_cons_of_mem _ found, related⟩

namespace Document

variable (d : Document)

/-- A node that shows a value is expanded to itself, as far as it may be nested. -/
theorem expand_of_shows {node : Node} {v : Value} {depth : Nat} (here : node.Shows v)
    (fits : v.depth ≤ depth) : d.expand depth node = pure node := by
  -- On the depth that is left, since nodes nest through lists and through pairs of themselves.
  induction depth generalizing node v with
  | zero =>
    rcases here.cases with ⟨_, _, rfl, -⟩ | ⟨_, vs, -, rfl, -⟩ | ⟨_, entries, -, rfl, -⟩
    · rfl
    · exact absurd fits (Nat.not_succ_le_zero _)
    · exact absurd fits (Nat.not_succ_le_zero _)
  | succ depth ih =>
    rcases here.cases with ⟨_, _, rfl, -⟩ | ⟨items, vs, rfl, rfl, same⟩ |
      ⟨pairs, entries, rfl, rfl, same⟩
    · rfl
    · have inside : ∀ item ∈ items, d.expand depth item = pure item := by
        intro item mem
        obtain ⟨v, found, shows⟩ := exists_of_forall₂ same mem
        exact ih shows (Nat.le_of_lt_succ (Nat.lt_of_lt_of_le (depth_lt_list found) fits))
      show (items.mapM (d.expand depth) >>= fun items => pure (Node.list none items)) = _
      rw [mapM_eq_pure inside, pure_bind]
    · have inside : ∀ pair ∈ pairs, (do
          return (← d.expand depth pair.1, ← d.expand depth pair.2)) = (pure pair : Following _) := by
        intro pair mem
        obtain ⟨e, found, key, value⟩ := exists_of_forall₂ same mem
        have fits := Nat.le_of_succ_le_succ fits
        have deep := depth_le_entriesDepth found
        rw [ih key (Nat.le_trans deep.1 fits), pure_bind, ih value (Nat.le_trans deep.2 fits),
          pure_bind]
      show (pairs.mapM (fun pair => do
        return (← d.expand depth pair.1, ← d.expand depth pair.2)) >>=
          fun pairs => pure (Node.map none pairs)) = _
      rw [mapM_eq_pure inside, pure_bind]

theorem expandEntries_of_shows {rule : String → Option (Node → Following Node)} {node : Node}
    {entries : List (String × Value)} (here : node.Shows (.fields entries))
    (kept : ∀ e ∈ entries, ∃ expand, rule e.1 = some expand ∧
      ∀ part : Node, part.Shows e.2 → expand part = pure part) :
    d.expandEntries rule node = pure node := by
  obtain ⟨pairs, rfl, same⟩ := shows_fields here
  refine (congrArg (· >>= fun kept => pure (Node.map none kept))
    (filterMapM_eq_pure (m := Following) ?_)).trans (pure_bind pairs _)
  intro pair mem
  obtain ⟨e, found, ⟨style, key⟩, value⟩ := exists_of_forall₂ same mem
  obtain ⟨key', value'⟩ := pair
  obtain rfl : key' = _ := key
  obtain ⟨expand, known, fixed⟩ := kept e found
  simp only [follow, pure_bind, known, fixed value' value]

theorem expandItems_of_shows {expand : Node → Following Node} {node : Node} {vs : List Value}
    (here : node.Shows (.list vs))
    (kept : ∀ v ∈ vs, ∀ part : Node, part.Shows v → expand part = pure part) :
    d.expandItems expand node = pure node := by
  obtain ⟨items, rfl, same⟩ := shows_list here
  show (items.mapM expand >>= fun items => pure (Node.list none items)) = _
  rw [mapM_eq_pure, pure_bind]
  intro item mem
  obtain ⟨v, found, here⟩ := exists_of_forall₂ same mem
  exact kept v found item here

theorem expand_reminder (r : Reminder) (depth : Nat) {node : Node} (here : node.Shows r.encode) :
    d.expandEntries
      (fun name => if name ∈ ["interval", "unit"] then some (d.expand depth) else none) node =
        pure node := by
  refine d.expandEntries_of_shows here ?_
  rw [List.forall_mem_cons, List.forall_mem_singleton]
  refine ⟨⟨d.expand depth, if_pos (.head _), fun part shows => ?_⟩,
    ⟨d.expand depth, if_pos (.tail _ (.head _)), fun part shows => ?_⟩⟩
  · exact d.expand_of_shows shows (Nat.zero_le _)
  · exact d.expand_of_shows shows (Nat.zero_le _)

theorem expand_template (t : Template) {depth : Nat} (fits : t.encode.depth ≤ depth + 1)
    {node : Node} (here : node.Shows t.encode) :
    d.expandEntries (fun name => some (if name = "timer" then
        d.expandEntries fun name => if name ∈ ["interval", "unit"] then some (d.expand depth) else none
      else d.expand depth)) node = pure node := by
  rw [t.encode_eq] at here fits
  refine d.expandEntries_of_shows here fun e mem => ⟨_, rfl, fun part shows => ?_⟩
  have flat : e.2.depth ≤ depth :=
    Nat.le_of_lt_succ (Nat.lt_of_lt_of_le (depth_lt_fields mem) fits)
  by_cases timer : e.1 = "timer"
  · obtain ⟨r, value⟩ := t.mem_entries_timer mem timer
    rw [if_pos timer]
    rw [value] at shows
    exact d.expand_reminder r depth shows
  · rw [if_neg timer]
    exact d.expand_of_shows shows flat

/-- A document that shows a workflow has no aliases to follow. -/
theorem expandWorkflow_of_shows {w : Workflow} (here : d.root.Shows w.encode)
    (fits : w.encode.depth ≤ greatestDepth) : expandWorkflow d = pure d.root := by
  unfold expandWorkflow
  rw [w.encode_eq] at here fits
  refine d.expandEntries_of_shows here fun e mem => ?_
  have inside := depth_lt_fields mem
  simp only [Workflow.entries, List.mem_append] at mem
  rcases mem with ((mem | mem) | mem) | mem
  · obtain ⟨name, value⟩ := mem_field? mem
    refine ⟨d.expand (greatestDepth - 3), ?_, fun part shows => d.expand_of_shows shows ?_⟩
    · rw [name, if_neg (by decide), if_neg (by decide), if_pos (by decide)]
    · rw [← Option.some.inj value]
      exact Nat.zero_le _
  · obtain ⟨name, value⟩ := mem_field? mem
    obtain ⟨n, -, same⟩ := Option.map_eq_some_iff.mp value
    refine ⟨d.expand (greatestDepth - 3), ?_, fun part shows => d.expand_of_shows shows ?_⟩
    · rw [name, if_neg (by decide), if_neg (by decide), if_pos (by decide)]
    · rw [← same]
      exact Nat.zero_le _
  · obtain ⟨name, r, value⟩ := mem_reminderField mem
    refine ⟨_, by rw [name, if_pos rfl], fun part shows => ?_⟩
    rw [value] at shows
    exact d.expand_reminder r _ shows
  · obtain ⟨name, value⟩ := mem_field? mem
    refine ⟨_, by rw [name, if_neg (by decide), if_pos rfl], fun part shows => ?_⟩
    rw [← Option.some.inj value, encodeAll_eq_map] at shows inside
    refine d.expandItems_of_shows shows fun v found part shows => ?_
    have deeper := depth_lt_list found
    obtain ⟨t, -, rfl⟩ := List.mem_map.mp found
    refine d.expand_template t ?_ shows
    -- Three collections are around a field: the workflow, its blocks and the template.
    have limit : greatestDepth = 128 := rfl
    omega

end Document

end Yaml

end Stepwise
