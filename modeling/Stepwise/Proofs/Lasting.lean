import Stepwise.Proofs.Routing

/-!
# Groups that an event leaves in place

An event for a thread of a group changes that thread, or takes it off the group, or ends the group.
The group lasts in the first two cases, and counts the thread in the second one. A group further up
lasts until the groups inside it have had their turn, so that a group in the tree lasts unless the
event finishes the last thread that it needs.
-/

namespace Stepwise

variable {σ : Type} {Good : σ → Prop} {services : Services σ} {w : World σ}

namespace Execution

/-- The group at a path, or a later state of it, is still there: no sequence around it has gone past
it, and it has threads. -/
def GroupLasts (path : List Nat) (e e' : Execution) : Prop :=
  ∃ x x', SameThread path e e' x x' ∧ x'.cursor = x.cursor ∧ x'.threads ≠ []

theorem groupLasts_nil {e e' : Execution} :
    GroupLasts [] e e' ↔ e'.cursor = e.cursor ∧ e'.threads ≠ [] := by
  constructor
  · rintro ⟨_, _, ⟨⟩, rests⟩
    exact rests
  · rintro rests
    exact ⟨e, e', .root, rests⟩

theorem groupLasts_cons {e e' : Execution} {branch : Nat} {path : List Nat} :
    GroupLasts (branch :: path) e e' ↔ e'.cursor = e.cursor ∧
      ∃ t ∈ e.threads.find? (·.branch = branch), ∃ t' ∈ e'.threads.find? (·.branch = branch),
        GroupLasts path t.execution t'.execution := by
  constructor
  · rintro ⟨x, x', same, rests⟩
    cases same with
    | thread stays found found' inside => exact ⟨stays, _, found, _, found', x, x', inside, rests⟩
  · rintro ⟨stays, t, found, t', found', x, x', inside, rests⟩
    exact ⟨x, x', .thread stays found found' inside, rests⟩

theorem GroupLasts.here {e e' : Execution} {path : List Nat} (lasts : GroupLasts path e e') :
    GroupLasts [] e e' := by
  cases path with
  | nil => exact lasts
  | cons branch path =>
    obtain ⟨stays, s, -, t, found, -⟩ := groupLasts_cons.mp lasts
    exact groupLasts_nil.mpr ⟨stays, List.ne_nil_of_mem (List.mem_of_find?_eq_some found)⟩

instance decidableGroupLasts : (path : List Nat) → (e e' : Execution) →
    Decidable (GroupLasts path e e')
  | [], _, _ => decidable_of_iff _ groupLasts_nil.symm
  | _ :: path, _, _ =>
    have : DecidableRel (GroupLasts path) := decidableGroupLasts path
    decidable_of_iff _ groupLasts_cons.symm

variable {e : Execution} {b : Block} {rest : List Block} {join : Join} {before after : List Thread}
  {t : Thread} {x : Execution}

/-- A group that leaves goes on to the next block, unless it breaks off without its threads. -/
theorem leave_moves (services : Services σ) (b : Block) (ahead : List Block) (e : Execution)
    (w : World σ) :
    (e.leave services b ahead w).part.threads = [] ∨
      e.cursor < (e.leave services b ahead w).part.cursor := by
  let moved (e' : Execution) : Prop := e'.threads = [] ∨ e.cursor < e'.cursor
  have entered (left : Block) (v : World σ) :
      e.cursor < (Execution.enter services ⟨e.advance left ahead, []⟩ v).part.cursor := by
    have evolves := enter_evolves services ⟨e.advance left ahead, []⟩ v rfl
    exact Nat.lt_of_lt_of_le (Nat.lt_succ_self _) evolves.grows.line.cursor_le
  refine Outcome.bind_part (P := moved) (Or.inl rfl) fun _ _ => ?_
  exact Outcome.bind_part (P := moved) (Or.inl rfl) fun _ _ => Or.inr (entered _ _)

end Execution

/-- What a group has counted when a thread has become `x`. -/
def Join.tally (j : Join) (x : Execution) : Join :=
  if x.finished then { j with completed := j.completed + 1 } else j

/-- What a group has of a thread that has become `x`. -/
def Thread.kept (t : Thread) (x : Execution) : List Thread :=
  if x.finished then [] else [{ t with execution := x }]

/-- The other threads are where they were. -/
theorem Thread.find_kept {t : Thread} {x : Execution} {before after : List Thread} {branch : Nat}
    (other : t.branch ≠ branch) :
    (before ++ t.kept x ++ after).find? (·.branch = branch) =
      (before ++ t :: after).find? (·.branch = branch) := by
  rw [find_other other]
  unfold kept
  split
  · rw [List.append_nil]
  · rw [List.append_assoc]
    exact find_other (t := { t with execution := x }) other

/-- The group at the front of the execution has this count and these threads. -/
def Execution.regrouped (e : Execution) (b : Block) (rest : List Block) (join : Join)
    (threads : List Thread) : Execution :=
  ⟨{ e.toSequence with ahead := { b with activity := .parallel join } :: rest }, threads⟩

theorem Join.Open.tally {j : Join} {before after : List Thread} {t : Thread}
    (is_open : j.Open (before ++ t :: after)) {x : Execution}
    (short : x.finished = true → j.completed + 1 ≠ j.target) :
    (j.tally x).Open (before ++ t.kept x ++ after) := by
  unfold Join.tally Thread.kept
  split
  · next finished =>
    rw [List.append_nil]
    exact is_open.remove (short finished)
  · rw [List.append_assoc]
    exact is_open.replace x

namespace Execution

variable {e : Execution} {b : Block} {rest : List Block} {join : Join} {before after : List Thread}
  {t : Thread} {x : Execution}

/-- A running execution at a group, and a thread of this group. -/
structure AtThread (e : Execution) (b : Block) (rest : List Block) (join : Join)
    (before : List Thread) (t : Thread) (after : List Thread) : Prop where
  running : e.isRunning = true
  group : e.AtGroup b rest join
  threads : e.threads = before ++ t :: after
  is_open : join.Open (before ++ t :: after)

namespace AtThread

/-- A thread further back in the group. -/
theorem later {between : List Thread} {u : Thread}
    (place : e.AtThread b rest join before t (between ++ u :: after)) :
    e.AtThread b rest join (before ++ t :: between) u after := by
  have split : before ++ t :: (between ++ u :: after) = (before ++ t :: between) ++ u :: after := by
    rw [List.append_assoc, List.cons_append]
  refine ⟨place.running, place.group, ?_, ?_⟩
  · rw [place.threads, split]
  · rw [← split]
    exact place.is_open

variable (place : e.AtThread b rest join before t after)
include place

theorem mem : t ∈ e.threads := by
  rw [place.threads]
  exact List.mem_append_right before List.mem_cons_self

theorem dispatch (event : Event) (path : List Nat) (w : World σ) :
    e.dispatch services event (t.branch :: path) w =
      (t.execution.dispatch services event path w).bind
        (fun x => { e with threads := before ++ { t with execution := x } :: after })
        fun _ x w => e.afterThread services b rest join before after { t with execution := x } w := by
  refine dispatch_thread place.running place.group.now place.group.join? ?_ event path w
  rw [place.threads]
  exact place.is_open.findThread

theorem afterThread_short (short : x.finished = true → join.completed + 1 ≠ join.target)
    (w : World σ) :
    e.afterThread services b rest join before after { t with execution := x } w =
      ⟨.ok (), e.regrouped b rest (join.tally x) (before ++ t.kept x ++ after), w⟩ := by
  unfold Join.tally Thread.kept
  cases finished : x.finished with
  | true =>
    simp only [if_true, List.append_nil]
    exact afterThread_stays finished place.is_open (short finished)
  | false =>
    have same : { b with activity := .parallel join } = b := by
      rw [← place.group.activity]
    simp only [Bool.false_eq_true, if_false, List.append_assoc, List.cons_append, List.nil_append]
    rw [afterThread_runs finished, regrouped, same, ← place.group.now]

theorem breaks (finished : x.finished = true) (enough : join.completed + 1 = join.target)
    (w : World σ) :
    ¬ GroupLasts [] e
      (e.afterThread services b rest join before after { t with execution := x } w).part := by
  have ends : (before ++ after).isEmpty = true ∨ join.completed + 1 = join.choose := by
    rw [List.isEmpty_iff]
    exact place.is_open.ends_iff.mpr enough
  have undone : join.done = false := place.is_open.undone
  rw [groupLasts_nil]
  rintro ⟨stays, some_thread⟩
  simp only [afterThread, finished, if_true, Join.complete, ends, undone] at stays some_thread
  rcases cancelled : cancelThreads services (before ++ after) w with ⟨answer, ⟨⟩, v⟩
  rw [cancelled] at stays some_thread
  cases answer with
  | error error => exact some_thread rfl
  | ok _ =>
    simp only [Outcome.bind, Bool.false_eq_true, if_false, if_true] at stays some_thread
    rcases leave_moves services _ rest ⟨_, _⟩ v with none | further
    · exact some_thread none
    · exact absurd stays (Nat.ne_of_gt further)

/-- The group stays unless the event finishes the last thread that it needs. -/
theorem lasts_iff {event : Event} {path : List Nat} {w v : World σ}
    (delivered : t.execution.dispatch services event path w = ⟨.ok (), x, v⟩) :
    GroupLasts [] e (e.dispatch services event (t.branch :: path) w).part ↔
      (x.finished = true → join.completed + 1 ≠ join.target) := by
  rw [place.dispatch, delivered, Outcome.bind_ok]
  constructor
  · intro lasts finished enough
    exact place.breaks finished enough v lasts
  · intro short
    rw [place.afterThread_short short, groupLasts_nil]
    refine ⟨rfl, (place.is_open.tally short).ne_nil⟩

end AtThread

theorem Settled.atThread (settled : e.Settled) (group : e.AtGroup b rest join)
    (threads : e.threads = before ++ t :: after) : e.AtThread b rest join before t after :=
  ⟨settled.isRunning, group, threads, threads ▸ settled.at_group group⟩

theorem Settled.delivers (reliable : services.Reliable Good) (settled : e.Settled)
    (quiet : hooksSucceed e.threads) (mem : t ∈ e.threads) (event : Event) (path : List Nat)
    (good : Good w.host) :
    ∃ x v, t.execution.dispatch services event path w = ⟨.ok (), x, v⟩ ∧ t.execution.Becomes x := by
  have t_settled := ((settled_iff e).mp settled).2.2 t mem
  have t_quiet := (hooksSucceed_forall _).mp quiet t mem
  obtain ⟨x, v, delivered, -, moved⟩ := dispatch_becomes reliable t_settled t_quiet event path good
  exact ⟨x, v, delivered, moved⟩

section Tree

variable {f : Event} {p r : List Nat} {v : World σ}

/-- An event after which a group inside a thread is still there has not finished the thread. -/
theorem GroupLasts.inside (place : e.AtThread b rest join before t after)
    (delivered : t.execution.dispatch services f p w = ⟨.ok (), x, v⟩)
    (lasts : GroupLasts (t.branch :: r) e (e.dispatch services f (t.branch :: p) w).part) :
    x.finished = false ∧ GroupLasts r t.execution x := by
  obtain ⟨stays, s, found, s', found', inner⟩ := groupLasts_cons.mp lasts
  rw [place.dispatch, delivered, Outcome.bind_ok] at stays found'
  have first := place.is_open.find_replaced t rfl
  rw [← place.threads, found] at first
  cases first
  cases finished : x.finished with
  | false =>
    have replaced := place.is_open.find_replaced { t with execution := x } rfl
    rw [afterThread_runs finished, replaced] at found'
    cases found'
    exact ⟨rfl, inner⟩
  | true =>
    -- The thread is gone, and no other one has its number.
    have short := (place.lasts_iff delivered).mp lasts.here
    rw [place.afterThread_short short, Thread.kept, if_pos finished, List.append_nil] at found'
    have branch := List.find?_some found'
    exact absurd (by simpa using branch)
      (branch_ne place.is_open.increasing (List.mem_of_find?_eq_some found'))

/-- The groups around are left in their turn only, so a group in the tree stays unless the event
finishes the last thread that it needs. -/
theorem Settled.groupLasts_iff (reliable : services.Reliable Good) (settled : e.Settled)
    (quiet : hooksSucceed e.threads) (found : e.thread? r = some x) (some_thread : x.threads ≠ [])
    (event : Event) (deeper : List Nat) (good : Good w.host) :
    GroupLasts r e (e.dispatch services event (r ++ deeper) w).part ↔
      ¬ x.EndsGroup services event deeper w := by
  induction r generalizing e with
  | nil =>
    obtain rfl : e = x := Option.some.inj found
    obtain ⟨s, s_mem⟩ := List.exists_mem_of_ne_nil _ some_thread
    obtain ⟨b, rest, join, group⟩ := settled.atGroup_of_mem s_mem
    constructor
    · rintro lasts ⟨b, rest, join, before, t, after, deeper, group, rfl, threads, finished, enough⟩
      have place := settled.atThread group threads
      obtain ⟨x, v, delivered, -⟩ := settled.delivers reliable quiet place.mem event deeper good
      rw [delivered] at finished
      exact (place.lasts_iff delivered).mp lasts finished enough
    · intro goes_on
      rcases settled.dispatch_group group event deeper w
        with ⟨notice, passed⟩ | ⟨before, t, after, deeper, rfl, threads⟩
      · rw [List.nil_append, passed]
        exact groupLasts_nil.mpr ⟨rfl, some_thread⟩
      · have place := settled.atThread group threads
        obtain ⟨x, v, delivered, -⟩ := settled.delivers reliable quiet place.mem event deeper good
        refine (place.lasts_iff delivered).mpr fun finished enough => goes_on ?_
        refine ⟨b, rest, join, before, t, after, deeper, group, rfl, threads, ?_, enough⟩
        rw [delivered]
        exact finished
  | cons branch r ih =>
    obtain ⟨t, mem, first, rfl, inside⟩ := thread?_found found
    obtain ⟨b, rest, join, group⟩ := settled.atGroup_of_mem mem
    obtain ⟨before, after, threads⟩ := List.append_of_mem mem
    have place := settled.atThread group threads
    have t_settled := ((settled_iff e).mp settled).2.2 t mem
    have t_quiet := ((hooksSucceed_iff _).mp ((hooksSucceed_forall _).mp quiet t mem)).2
    obtain ⟨y, v, delivered, moved⟩ :=
      settled.delivers reliable quiet mem event (r ++ deeper) good
    have inner := ih t_settled t_quiet inside
    rw [delivered] at inner
    rw [← inner]
    constructor
    · intro lasts
      exact (lasts.inside place delivered).2
    · intro lasts
      have runs : y.finished = false := by
        rcases moved.rests with spent | settled_y
        · exact absurd spent.threads (groupLasts_nil.mp lasts.here).2
        · exact settled_y.unfinished
      rw [List.cons_append, place.dispatch, delivered, Outcome.bind_ok, afterThread_runs runs]
      exact groupLasts_cons.mpr ⟨rfl, t, first, _, place.is_open.find_replaced _ rfl, lasts⟩

end Tree

end Execution

end Stepwise
