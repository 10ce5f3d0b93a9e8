import Mathlib.Tactic.ByContra
import Stepwise.Timeline

/-!
# Visits as pairs of events

The visits of a timeline are found in one pass that keeps the entry times of the blocks still open.
Here they are described event by event: a leaving ends a visit if the latest entering or leaving at
its index before it is an entering. The pass keeps, for each index, just what this event says.
-/

namespace Stepwise

namespace Timeline

/-- The latest event of a block at this index that was entered or left. -/
def lastAt (index : Nat) (t : Timeline) : Option TimedEvent :=
  t.reverse.find? fun event => event.index = index ∧ event.mark ≠ .finished

/-- When the block at this index was entered, unless it was left since. -/
def enteredAt (index : Nat) (t : Timeline) : Option Int :=
  ((lastAt index t).filter (·.mark = .entered)).map (·.time)

/-- The visit that ends with this event, after the earlier ones. -/
def visitAfter (earlier : Timeline) (event : TimedEvent) : Option Visit :=
  if event.mark = .left then
    (enteredAt event.index earlier).map fun start =>
      ⟨event.index, event.label, event.time - start⟩
  else none

/-- The visit that ends with the event in this place. -/
def visitAt (t : Timeline) (place : Nat) : Option Visit :=
  t[place]?.bind (visitAfter (t.take place))

theorem lastAt_concat (index : Nat) (t : Timeline) (event : TimedEvent) :
    lastAt index (t ++ [event]) =
      if event.index = index ∧ event.mark ≠ .finished then some event else lastAt index t := by
  rw [lastAt, List.reverse_concat, List.find?_cons]
  by_cases last : event.index = index ∧ event.mark ≠ .finished
  · rw [if_pos last]
    simp only [decide_eq_true last]
  · rw [if_neg last]
    simp only [decide_eq_false last]
    rfl

theorem enteredAt_concat_other {index : Nat} {event : TimedEvent} (other : event.index ≠ index)
    (t : Timeline) : enteredAt index (t ++ [event]) = enteredAt index t := by
  rw [enteredAt, lastAt_concat, if_neg (fun last => other last.1), enteredAt]

theorem enteredAt_concat_entered {event : TimedEvent} (entered : event.mark = .entered)
    (t : Timeline) : enteredAt event.index (t ++ [event]) = some event.time := by
  rw [enteredAt, lastAt_concat, if_pos ⟨rfl, by simp [entered]⟩, Option.filter_some,
    if_pos (decide_eq_true entered), Option.map_some]

theorem enteredAt_concat_left {event : TimedEvent} (left : event.mark = .left) (t : Timeline) :
    enteredAt event.index (t ++ [event]) = none := by
  rw [enteredAt, lastAt_concat, if_pos ⟨rfl, by simp [left]⟩, Option.filter_some,
    if_neg (by simp [left]), Option.map_none]

theorem enteredAt_concat_finished {event : TimedEvent} (finished : event.mark = .finished)
    (index : Nat) (t : Timeline) : enteredAt index (t ++ [event]) = enteredAt index t := by
  rw [enteredAt, lastAt_concat, if_neg (fun last => last.2 finished), enteredAt]

namespace Open

/-- The entry time that is kept for an index. -/
def at? (entries : Open) (index : Nat) : Option Int :=
  (entries.find? (·.1 = index)).map (·.2)

theorem at?_others_same (entries : Open) (index : Nat) :
    at? (entries.filter (·.1 ≠ index)) index = none := by
  rw [at?, Option.map_eq_none_iff, List.find?_eq_none]
  intro entry mem
  have other := (List.mem_filter.mp mem).2
  simpa using other

theorem at?_others {index other : Nat} (differs : other ≠ index) (entries : Open) :
    at? (entries.filter (·.1 ≠ index)) other = at? entries other := by
  rw [at?, at?, List.find?_filter]
  congr 2
  funext entry
  by_cases same : entry.1 = other
  · simp [same, differs]
  · simp [same]

theorem at?_cons_same (entries : Open) (index : Nat) (time : Int) :
    at? ((index, time) :: entries) index = some time := by
  simp [at?]

theorem at?_cons_other {index other : Nat} (differs : other ≠ index) (entries : Open) (time : Int) :
    at? ((index, time) :: entries) other = at? entries other := by
  simp [at?, differs.symm]

/-- The entries are those of the blocks that the earlier events leave open. -/
def Follows (entries : Open) (earlier : Timeline) : Prop :=
  ∀ index, entries.at? index = enteredAt index earlier

theorem follows_nil : Follows [] [] := fun _ => rfl

variable {entries : Open} {earlier : Timeline} {event : TimedEvent}

theorem Follows.entered (follows : entries.Follows earlier) (entered : event.mark = .entered) :
    Follows ((event.index, event.time) :: entries.filter (·.1 ≠ event.index))
      (earlier ++ [event]) := by
  intro index
  by_cases same : index = event.index
  · rw [same, at?_cons_same, enteredAt_concat_entered entered]
  · rw [at?_cons_other same, at?_others same, follows, enteredAt_concat_other (Ne.symm same)]

theorem Follows.left (follows : entries.Follows earlier) (left : event.mark = .left) :
    Follows (entries.filter (·.1 ≠ event.index)) (earlier ++ [event]) := by
  intro index
  by_cases same : index = event.index
  · rw [same, at?_others_same, enteredAt_concat_left left]
  · rw [at?_others same, follows, enteredAt_concat_other (Ne.symm same)]

/-- A leaving at an index that is not open changes nothing. -/
theorem Follows.left_unopened (follows : entries.Follows earlier) (left : event.mark = .left)
    (unopened : entries.at? event.index = none) : entries.Follows (earlier ++ [event]) := by
  intro index
  by_cases same : index = event.index
  · rw [same, unopened, enteredAt_concat_left left]
  · rw [follows, enteredAt_concat_other (Ne.symm same)]

theorem Follows.finished (follows : entries.Follows earlier) (finished : event.mark = .finished) :
    entries.Follows (earlier ++ [event]) := by
  intro index
  rw [follows, enteredAt_concat_finished finished]

end Open

variable {entries : Open} {event : TimedEvent}

theorem visitsFrom_entered (entered : event.mark = .entered) (rest : Timeline) :
    visitsFrom entries (event :: rest) =
      visitsFrom ((event.index, event.time) :: entries.filter (·.1 ≠ event.index)) rest := by
  simp only [visitsFrom, entered]

theorem visitsFrom_finished (finished : event.mark = .finished) (rest : Timeline) :
    visitsFrom entries (event :: rest) = visitsFrom entries rest := by
  simp only [visitsFrom, finished]

theorem visitsFrom_left (left : event.mark = .left) {start : Int}
    (opened : entries.at? event.index = some start) (rest : Timeline) :
    visitsFrom entries (event :: rest) =
      ⟨event.index, event.label, event.time - start⟩ ::
        visitsFrom (entries.filter (·.1 ≠ event.index)) rest := by
  obtain ⟨entry, found, rfl⟩ := Option.map_eq_some_iff.mp opened
  simp only [visitsFrom, left, found]

theorem visitsFrom_left_unopened (left : event.mark = .left)
    (unopened : entries.at? event.index = none) (rest : Timeline) :
    visitsFrom entries (event :: rest) = visitsFrom entries rest := by
  have missing := Option.map_eq_none_iff.mp unopened
  simp only [visitsFrom, left, missing]

/-- The pass over the later events, with what the earlier ones leave open, finds a visit at each
event that ends one. -/
theorem visitsFrom_follows {earlier : Timeline} (follows : entries.Follows earlier)
    (later : Timeline) : visitsFrom entries later =
      (List.range later.length).filterMap fun place =>
        later[place]?.bind (visitAfter (earlier ++ later.take place)) := by
  induction later generalizing entries earlier with
  | nil => rfl
  | cons event rest ih =>
    have shift : ((List.range rest.length).map (· + 1)).filterMap (fun place =>
        (event :: rest)[place]?.bind (visitAfter (earlier ++ (event :: rest).take place))) =
        (List.range rest.length).filterMap fun place =>
          rest[place]?.bind (visitAfter (earlier ++ [event] ++ rest.take place)) := by
      rw [List.filterMap_map]
      congr 1
      funext place
      simp [Function.comp]
    have here : (event :: rest)[0]?.bind (visitAfter (earlier ++ (event :: rest).take 0)) =
        visitAfter earlier event := by simp
    rw [List.length_cons, List.range_succ_eq_map, List.filterMap_cons, here, shift]
    cases mark : event.mark with
    | entered =>
      have no_visit : visitAfter earlier event = none := by simp [visitAfter, mark]
      rw [visitsFrom_entered mark, no_visit, ih (follows.entered mark)]
    | finished =>
      have no_visit : visitAfter earlier event = none := by simp [visitAfter, mark]
      rw [visitsFrom_finished mark, no_visit, ih (follows.finished mark)]
    | left =>
      have visit : visitAfter earlier event = (entries.at? event.index).map fun start =>
          ⟨event.index, event.label, event.time - start⟩ := by
        rw [visitAfter, if_pos mark, follows]
      cases kept : entries.at? event.index with
      | none =>
        rw [visitsFrom_left_unopened mark kept, visit, kept, Option.map_none,
          ih (follows.left_unopened mark kept)]
      | some start =>
        rw [visitsFrom_left mark kept, visit, kept, Option.map_some, ih (follows.left mark)]

theorem visits_eq_filterMap (t : Timeline) :
    t.visits = (List.range t.length).filterMap t.visitAt := by
  rw [visits, visitsFrom_follows Open.follows_nil]
  rfl

/-- The event in the second place is a leaving, and the latest event before it that enters or leaves
at its index is the entering in the first place. -/
structure Pairs (t : Timeline) (i j : Nat) (entering leaving : TimedEvent) : Prop where
  first : t[i]? = some entering
  second : t[j]? = some leaving
  before : i < j
  enters : entering.mark = .entered
  leaves : leaving.mark = .left
  same : entering.index = leaving.index
  between : ∀ k event, i < k → k < j → t[k]? = some event → event.index = leaving.index →
    event.mark = .finished

/-- The latest event at an index, by its place. -/
theorem lastAt_eq_some_iff {index : Nat} {t : Timeline} {event : TimedEvent} :
    lastAt index t = some event ↔ event.index = index ∧ event.mark ≠ .finished ∧
      ∃ i : Nat, t[i]? = some event ∧ ∀ (k : Nat) later, i < k → t[k]? = some later →
        later.index = index → later.mark = .finished := by
  rw [lastAt, List.find?_eq_some_iff_getElem]
  constructor
  · rintro ⟨takes, i, inside, at_i, passed⟩
    have takes := of_decide_eq_true takes
    rw [List.length_reverse] at inside
    refine ⟨takes.1, takes.2, t.length - 1 - i, ?_, ?_⟩
    · rw [List.getElem_reverse] at at_i
      exact List.getElem?_eq_some_iff.mpr ⟨by omega, at_i⟩
    · intro k later beyond at_k at_index
      obtain ⟨bound, rfl⟩ := List.getElem?_eq_some_iff.mp at_k
      have missed := passed (t.length - 1 - k) (by omega)
      have place : t.length - 1 - (t.length - 1 - k) = k := by omega
      simp only [List.getElem_reverse, place] at missed
      by_contra marked
      simp [at_index, marked] at missed
  · rintro ⟨same, marked, i, at_i, latest⟩
    obtain ⟨inside, rfl⟩ := List.getElem?_eq_some_iff.mp at_i
    refine ⟨decide_eq_true ⟨same, marked⟩, t.length - 1 - i, ?_, ?_, ?_⟩
    · rw [List.length_reverse]
      omega
    · have place : t.length - 1 - (t.length - 1 - i) = i := by omega
      simp only [List.getElem_reverse, place]
    · intro k below
      have later := latest (t.length - 1 - k) _ (by omega) (List.getElem?_eq_getElem (by omega))
      rw [List.getElem_reverse, Bool.not_eq_true', decide_eq_false_iff_not]
      exact fun takes => takes.2 (later takes.1)

theorem enteredAt_eq_some_iff {index : Nat} {t : Timeline} {start : Int} :
    enteredAt index t = some start ↔
      ∃ event, lastAt index t = some event ∧ event.mark = .entered ∧ event.time = start := by
  rw [enteredAt, Option.map_eq_some_iff]
  constructor
  · rintro ⟨event, kept, rfl⟩
    obtain ⟨found, entered⟩ := Option.filter_eq_some_iff.mp kept
    exact ⟨event, found, of_decide_eq_true entered, rfl⟩
  · rintro ⟨event, found, entered, rfl⟩
    exact ⟨event, Option.filter_eq_some_iff.mpr ⟨found, decide_eq_true entered⟩, rfl⟩

theorem visitAt_eq_some_iff {t : Timeline} {j : Nat} {visit : Visit} :
    t.visitAt j = some visit ↔ ∃ i entering leaving, t.Pairs i j entering leaving ∧
      visit = ⟨leaving.index, leaving.label, leaving.time - entering.time⟩ := by
  constructor
  · intro found
    obtain ⟨leaving, at_j, visited⟩ := Option.bind_eq_some_iff.mp found
    have leaves : leaving.mark = .left := by
      by_contra stays
      rw [visitAfter, if_neg stays] at visited
      exact nomatch visited
    rw [visitAfter, if_pos leaves] at visited
    obtain ⟨start, entered, rfl⟩ := Option.map_eq_some_iff.mp visited
    obtain ⟨entering, last, enters, rfl⟩ := enteredAt_eq_some_iff.mp entered
    obtain ⟨same, -, i, at_i, latest⟩ := lastAt_eq_some_iff.mp last
    have lower : i < j :=
      Nat.lt_of_lt_of_le (List.getElem?_eq_some_iff.mp at_i).1 (List.length_take_le j t)
    rw [List.getElem?_take_of_lt lower] at at_i
    refine ⟨i, entering, leaving, ⟨at_i, at_j, lower, enters, leaves, same, ?_⟩, rfl⟩
    intro k event beyond below at_k at_index
    exact latest k event beyond (by rw [List.getElem?_take_of_lt below, at_k]) at_index
  · rintro ⟨i, entering, leaving, pairs, rfl⟩
    have marked : entering.mark ≠ .finished := by
      rw [pairs.enters]
      exact Mark.noConfusion
    have last : lastAt leaving.index (t.take j) = some entering := by
      refine lastAt_eq_some_iff.mpr ⟨pairs.same, marked, i, ?_, ?_⟩
      · rw [List.getElem?_take_of_lt pairs.before, pairs.first]
      · intro k later beyond at_k
        have bound := (List.getElem?_eq_some_iff.mp at_k).1
        have below : k < j := Nat.lt_of_lt_of_le bound (List.length_take_le j t)
        rw [List.getElem?_take_of_lt below] at at_k
        exact pairs.between k later beyond below at_k
    have entered := enteredAt_eq_some_iff.mpr ⟨entering, last, pairs.enters, rfl⟩
    rw [visitAt, pairs.second, Option.bind_some, visitAfter, if_pos pairs.leaves, entered]
    rfl

/-- What lies between two paired events at their index neither enters nor leaves, so of two pairs
with one entering neither leaving comes first. -/
theorem Pairs.not_within {t : Timeline} {i j k : Nat} {entering leaving other again : TimedEvent}
    (pairs : t.Pairs i j entering leaving) (others : t.Pairs i k other again) : ¬ j < k := by
  intro lower
  have same_entering : entering = other := Option.some.inj (pairs.first.symm.trans others.first)
  have at_index : leaving.index = again.index := by rw [← pairs.same, same_entering, others.same]
  have finished := others.between j leaving pairs.before lower pairs.second at_index
  exact absurd (pairs.leaves.symm.trans finished) Mark.noConfusion

theorem Pairs.leaving_unique {t : Timeline} {i j k : Nat}
    {entering leaving other again : TimedEvent} (pairs : t.Pairs i j entering leaving)
    (others : t.Pairs i k other again) : j = k := by
  have forward := pairs.not_within others
  have backward := others.not_within pairs
  omega

/-- Ends are passed over. -/
theorem visitsFrom_unfinished (entries : Open) (t : Timeline) :
    visitsFrom entries (t.filter (·.mark ≠ .finished)) = visitsFrom entries t := by
  induction t generalizing entries with
  | nil => rfl
  | cons event rest ih =>
    cases mark : event.mark with
    | entered =>
      rw [List.filter_cons_of_pos (by simp [mark]), visitsFrom_entered mark,
        visitsFrom_entered mark, ih]
    | finished => rw [List.filter_cons_of_neg (by simp [mark]), visitsFrom_finished mark, ih]
    | left =>
      rw [List.filter_cons_of_pos (by simp [mark])]
      cases kept : entries.at? event.index with
      | none =>
        rw [visitsFrom_left_unopened mark kept, visitsFrom_left_unopened mark kept, ih]
      | some start => rw [visitsFrom_left mark kept, visitsFrom_left mark kept, ih]

/-- The pass over the events at one index needs the entry time of this index only. -/
theorem visitsFrom_at {index : Nat} {entries kept : Open}
    (agree : kept.at? index = entries.at? index) (t : Timeline) :
    visitsFrom kept (t.filter (·.index = index)) =
      (visitsFrom entries t).filter (·.index = index) := by
  induction t generalizing entries kept with
  | nil => rfl
  | cons event rest ih =>
    by_cases here : event.index = index
    · subst here
      rw [List.filter_cons_of_pos (by simp)]
      have both_closed : Open.at? (kept.filter (·.1 ≠ event.index)) event.index =
          Open.at? (entries.filter (·.1 ≠ event.index)) event.index := by
        rw [Open.at?_others_same, Open.at?_others_same]
      cases mark : event.mark with
      | entered =>
        rw [visitsFrom_entered mark, visitsFrom_entered mark, ih]
        rw [Open.at?_cons_same, Open.at?_cons_same]
      | finished => rw [visitsFrom_finished mark, visitsFrom_finished mark, ih agree]
      | left =>
        cases opened : entries.at? event.index with
        | none =>
          rw [visitsFrom_left_unopened mark (agree.trans opened),
            visitsFrom_left_unopened mark opened, ih agree]
        | some start =>
          rw [visitsFrom_left mark (agree.trans opened), visitsFrom_left mark opened,
            List.filter_cons_of_pos (by simp), ih both_closed]
    · have differs : index ≠ event.index := Ne.symm here
      rw [List.filter_cons_of_neg (by simp [here])]
      cases mark : event.mark with
      | entered =>
        rw [visitsFrom_entered mark, ih]
        rw [agree, Open.at?_cons_other differs, Open.at?_others differs]
      | finished => rw [visitsFrom_finished mark, ih agree]
      | left =>
        cases opened : entries.at? event.index with
        | none => rw [visitsFrom_left_unopened mark opened, ih agree]
        | some start =>
          rw [visitsFrom_left mark opened, List.filter_cons_of_neg (by simp [here])]
          exact ih (agree.trans (Open.at?_others differs entries).symm)

/-- The visits of a timeline are those of its leavings, in their order, whose latest entering or
leaving before them at their index is an entering. No entering belongs to two of them, the ends make
no difference, and the visits at an index depend on the events at this index alone. -/
theorem visits_paired (t : Timeline) :
    t.visits = (List.range t.length).filterMap t.visitAt ∧
    (∀ j visit, t.visitAt j = some visit ↔ ∃ i entering leaving, t.Pairs i j entering leaving ∧
      visit = ⟨leaving.index, leaving.label, leaving.time - entering.time⟩) ∧
    (∀ i j k entering leaving other again, t.Pairs i j entering leaving →
      t.Pairs i k other again → j = k) ∧
    visits (t.filter (·.mark ≠ .finished)) = t.visits ∧
    ∀ index, visits (t.filter (·.index = index)) = t.visits.filter (·.index = index) := by
  refine ⟨visits_eq_filterMap t, fun _ _ => visitAt_eq_some_iff, ?_, ?_, ?_⟩
  · intro i j k entering leaving other again pairs others
    exact pairs.leaving_unique others
  · exact visitsFrom_unfinished [] t
  · intro index
    exact visitsFrom_at rfl t

/-- The second entering takes the place of the first, and a leaving without one is passed over. -/
example : visits [⟨0, "a", .entered, 1⟩, ⟨0, "a", .entered, 4⟩, ⟨1, "b", .left, 5⟩,
    ⟨0, "a", .left, 9⟩, ⟨0, "a", .left, 10⟩] = [⟨0, "a", 5⟩] := by decide

end Timeline

end Stepwise
