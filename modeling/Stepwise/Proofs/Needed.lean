import Stepwise.Proofs.Branches.Runs
import Stepwise.Proofs.Living

/-!
# What a group still needs

A group waits for its target: as many threads as it asks for, or all of them if it has no such
number. What is left of the target is one at least and is never more than the threads that are left,
and the group ends with just so many further threads. The number that a group shows, what it asks
for less what it has counted, is this one only where it asks for one of its threads at least and for
no more than there are.
-/

namespace Stepwise

variable {σ : Type} {Good : σ → Prop} {services : Services σ} {w : World σ}

/-- How many more threads are to finish before the group ends. -/
def Join.needed (j : Join) : Nat := j.target - j.completed

theorem Join.todo_of_choose_zero {j : Join} (none : j.choose = 0) : j.todo = 0 := by
  unfold todo
  omega

namespace Join.Open

variable {j : Join} {threads : List Thread}

theorem needed_pos (is_open : j.Open threads) : 1 ≤ j.needed := by
  have short := is_open.short
  unfold Join.needed
  omega

theorem needed_le (is_open : j.Open threads) : j.needed ≤ threads.length := by
  have total := is_open.total
  have le : j.target ≤ j.branches.length := joinTarget_le j.choose j.branches.length
  unfold Join.needed
  omega

/-- The number shown is the one needed just where it can be chosen. -/
theorem todo_eq_needed_iff (is_open : j.Open threads) :
    j.todo = j.needed ↔ 1 ≤ j.choose ∧ j.choose ≤ j.branches.length := by
  have total := is_open.total
  have short := is_open.short
  unfold Join.todo Join.needed Join.target joinTarget at *
  split at short <;> split <;> omega

theorem lt_todo_of_lt_choose (is_open : j.Open threads) (beyond : j.branches.length < j.choose) :
    threads.length < j.todo := by
  have total := is_open.total
  unfold Join.todo
  omega

end Join.Open

/-- A group that has counted so many threads more. -/
def Join.counted (j : Join) (n : Nat) : Join := { j with completed := j.completed + n }

@[simp]
theorem Join.counted_counted (j : Join) (m n : Nat) :
    (j.counted m).counted n = j.counted (m + n) := by
  simp only [counted, Nat.add_assoc]

theorem Join.counted_target (j : Join) (n : Nat) : (j.counted n).target = j.target := rfl

theorem Join.tally_eq (j : Join) (x : Execution) : j.tally x = j.counted x.finished.toNat := by
  unfold tally counted
  cases x.finished <;> rfl

namespace Execution

variable {e e' x y : Execution} {b : Block} {rest : List Block} {join : Join}
  {before after : List Thread} {t : Thread} {event : Event} {path target deeper : List Nat}
  {branch other : Nat} {v : World σ}

/-- A group is at the path, and has threads. -/
def HasGroup (path : List Nat) (join : Join) (e : Execution) : Prop :=
  ∃ x b rest, e.thread? path = some x ∧ x.AtGroup b rest join ∧ x.threads ≠ []

theorem hasGroup_cons (first : e.threads.find? (·.branch = branch) = some t) :
    e.HasGroup (branch :: path) join ↔ t.execution.HasGroup path join := by
  unfold HasGroup
  rw [thread?_cons, first, Option.bind_some]

theorem HasGroup.below (has : e.HasGroup (branch :: path) join) :
    ∃ t ∈ e.threads, e.threads.find? (·.branch = branch) = some t ∧ t.branch = branch ∧
      t.execution.HasGroup path join := by
  obtain ⟨x, b, rest, found, group⟩ := has
  obtain ⟨t, mem, first, same, inside⟩ := thread?_found found
  exact ⟨t, mem, first, same, x, b, rest, inside, group⟩

theorem HasGroup.threads (has : e.HasGroup path join) : e.threads ≠ [] := by
  cases path with
  | nil =>
    obtain ⟨x, -, -, found, -, some_thread⟩ := has
    cases found
    exact some_thread
  | cons branch path =>
    obtain ⟨t, mem, -⟩ := has.below
    exact List.ne_nil_of_mem mem

theorem Settled.open_of_hasGroup (settled : e.Settled) (has : e.HasGroup path join) :
    ∃ threads, join.Open threads := by
  obtain ⟨x, b, rest, found, group, -⟩ := has
  exact ⟨x.threads, (settled.thread? found).at_group group⟩

theorem groupLasts_same (cursor : e'.cursor = e.cursor) (threads : e'.threads = e.threads)
    (has : e.HasGroup path join) : GroupLasts path e e' := by
  induction path generalizing e e' with
  | nil => exact groupLasts_nil.mpr ⟨cursor, threads ▸ has.threads⟩
  | cons branch path ih =>
    obtain ⟨t, -, first, -, inside⟩ := has.below
    exact groupLasts_cons.mpr ⟨cursor, t, first, t, threads ▸ first, ih rfl rfl inside⟩

theorem GroupLasts.outer {outer inner : List Nat} (lasts : GroupLasts (outer ++ inner) e e') :
    GroupLasts outer e e' := by
  induction outer generalizing e e' with
  | nil => exact lasts.here
  | cons branch outer ih =>
    obtain ⟨stays, t, found, t', found', inside⟩ := groupLasts_cons.mp lasts
    exact groupLasts_cons.mpr ⟨stays, t, found, t', found', ih inside⟩

/-- The event for the thread at the target finishes a thread of the group at the path. -/
def completes (services : Services σ) (event : Event) (w : World σ) :
    List Nat → List Nat → Execution → Bool
  | [], branch :: deeper, e =>
    match findThread branch e.threads with
    | some (_, t, _) => (t.execution.dispatch services event deeper w).part.finished
    | none => false
  | branch :: path, other :: target, e =>
    decide (other = branch) &&
      match findThread branch e.threads with
      | some (_, t, _) => t.execution.completes services event w path target
      | none => false
  | _, [], _ => false

theorem completes_here (place : e.AtThread b rest join before t after) :
    e.completes services event w [] (t.branch :: deeper) =
      (t.execution.dispatch services event deeper w).part.finished := by
  rw [completes, place.threads, place.is_open.findThread]

theorem completes_below (place : e.AtThread b rest join before t after) :
    e.completes services event w (t.branch :: path) (t.branch :: deeper) =
      t.execution.completes services event w path deeper := by
  rw [completes, place.threads, place.is_open.findThread, decide_eq_true rfl, Bool.true_and]

theorem completes_beside (differs : other ≠ branch) :
    e.completes services event w (branch :: path) (other :: deeper) = false := by
  rw [completes, decide_eq_false differs, Bool.false_and]

/-- The group stays where it is, and counts one thread if this one has finished. -/
structure GroupCounts (services : Services σ) (event : Event) (path target : List Nat) (w : World σ)
    (join : Join) (e e' : Execution) : Prop where
  lasts : GroupLasts path e e'
  short : e.completes services event w path target = true → join.completed + 1 ≠ join.target
  counted : e'.HasGroup path (join.counted (e.completes services event w path target).toNat)

/-- The event has finished the last thread that the group needed. -/
structure GroupEnds (services : Services σ) (event : Event) (path target : List Nat) (w : World σ)
    (join : Join) (e e' : Execution) : Prop where
  breaks : ¬ GroupLasts path e e'
  completes : e.completes services event w path target = true
  enough : join.completed + 1 = join.target

/-- An event that the group does not count. -/
theorem GroupCounts.of_not_completes (none : e.completes services event w path target = false)
    (lasts : GroupLasts path e e') (has : e'.HasGroup path join) :
    GroupCounts services event path target w join e e' := by
  refine ⟨lasts, ?_, ?_⟩
  · rw [none]
    exact nofun
  · rw [none]
    exact has

theorem GroupCounts.passed (none : e.completes services event w path target = false)
    (has : e.HasGroup path join) : GroupCounts services event path target w join e e :=
  .of_not_completes none (groupLasts_same rfl rfl has) has

namespace AtThread

variable (place : e.AtThread b rest join before t after)
include place

/-- An event for one of the threads of the group. -/
theorem groupCounts (delivered : t.execution.dispatch services event deeper w = ⟨.ok (), x, v⟩)
    (short : x.finished = true → join.completed + 1 ≠ join.target) :
    GroupCounts services event [] (t.branch :: deeper) w join e
      (e.dispatch services event (t.branch :: deeper) w).part := by
  have finishes : e.completes services event w [] (t.branch :: deeper) = x.finished := by
    rw [completes_here place, delivered]
  refine ⟨(place.lasts_iff delivered).mpr short, finishes ▸ short, ?_⟩
  rw [finishes, place.dispatch, delivered, Outcome.bind_ok, place.afterThread_short short,
    ← Join.tally_eq]
  exact ⟨_, _, rest, rfl, ⟨rfl, rfl⟩, (place.is_open.tally short).ne_nil⟩

theorem groupEnds (delivered : t.execution.dispatch services event deeper w = ⟨.ok (), x, v⟩)
    (finished : x.finished = true) (enough : join.completed + 1 = join.target) :
    GroupEnds services event [] (t.branch :: deeper) w join e
      (e.dispatch services event (t.branch :: deeper) w).part := by
  refine ⟨fun lasts => (place.lasts_iff delivered).mp lasts finished enough, ?_, enough⟩
  rw [completes_here place, delivered]
  exact finished

variable {inner : Join}

/-- An event for a thread that the group is in, or for one below. -/
theorem groupCounts_below
    (delivered : t.execution.dispatch services event deeper w = ⟨.ok (), x, v⟩)
    (moved : t.execution.Becomes x)
    (counts : GroupCounts services event path deeper w inner t.execution x) :
    GroupCounts services event (t.branch :: path) (t.branch :: deeper) w inner e
      (e.dispatch services event (t.branch :: deeper) w).part := by
  have unfinished : x.finished = false := by
    rcases moved.rests with spent | settled
    · exact absurd spent.threads (groupLasts_nil.mp counts.lasts.here).2
    · exact settled.unfinished
  have first : e.threads.find? (·.branch = t.branch) = some t := by
    rw [place.threads]
    exact place.is_open.find_replaced t rfl
  have replaced := place.is_open.find_replaced { t with execution := x } rfl
  rw [place.dispatch, delivered, Outcome.bind_ok, afterThread_runs unfinished]
  refine ⟨groupLasts_cons.mpr ⟨rfl, t, first, _, replaced, counts.lasts⟩, ?_, ?_⟩
  · rw [completes_below place]
    exact counts.short
  · rw [completes_below place]
    exact (hasGroup_cons replaced).mpr counts.counted

theorem groupEnds_below
    (delivered : t.execution.dispatch services event deeper w = ⟨.ok (), x, v⟩)
    (ends : GroupEnds services event path deeper w inner t.execution x) :
    GroupEnds services event (t.branch :: path) (t.branch :: deeper) w inner e
      (e.dispatch services event (t.branch :: deeper) w).part := by
  refine ⟨fun lasts => ends.breaks (lasts.inside place delivered).2, ?_, ends.enough⟩
  rw [completes_below place]
  exact ends.completes

/-- An event for a thread beside the one that the group is in. -/
theorem groupCounts_beside
    (delivered : t.execution.dispatch services event deeper w = ⟨.ok (), x, v⟩)
    (short : x.finished = true → join.completed + 1 ≠ join.target) (differs : t.branch ≠ branch)
    (has : e.HasGroup (branch :: path) inner) :
    GroupCounts services event (branch :: path) (t.branch :: deeper) w inner e
      (e.dispatch services event (t.branch :: deeper) w).part := by
  obtain ⟨s, -, first, -, inside⟩ := has.below
  have still : (before ++ t.kept x ++ after).find? (·.branch = branch) = some s := by
    rw [Thread.find_kept differs, ← place.threads]
    exact first
  rw [place.dispatch, delivered, Outcome.bind_ok, place.afterThread_short short]
  exact .of_not_completes (completes_beside differs)
    (groupLasts_cons.mpr ⟨rfl, s, first, s, still, groupLasts_same rfl rfl inside⟩)
    ((hasGroup_cons still).mpr inside)

end AtThread

section Delivery

variable (reliable : services.Reliable Good)
include reliable

theorem Settled.group_dispatch_here (settled : e.Settled) (quiet : hooksSucceed e.threads)
    (has : e.HasGroup [] join) (event : Event) (target : List Nat) (good : Good w.host) :
    GroupCounts services event [] target w join e (e.dispatch services event target w).part ∨
      GroupEnds services event [] target w join e (e.dispatch services event target w).part := by
  obtain ⟨x, b, rest, ⟨⟩, group, -⟩ := id has
  cases target with
  | nil =>
    rw [group.dispatch_here settled.isRunning]
    exact Or.inl (.passed rfl has)
  | cons branch deeper =>
    cases searched : findThread branch e.threads with
    | none =>
      obtain ⟨notice, -, passed⟩ := dispatch_nowhere services settled.isRunning group.now
        (Or.inr searched) event deeper w
      rw [passed]
      refine Or.inl (.passed ?_ has)
      rw [completes, searched]
    | some parts =>
      obtain ⟨before, t, after⟩ := parts
      obtain ⟨threads, rfl⟩ := findThread_some searched
      have place := settled.atThread group threads
      obtain ⟨x, v, delivered, -⟩ := settled.delivers reliable quiet place.mem event deeper good
      by_cases short : x.finished = true → join.completed + 1 ≠ join.target
      · exact Or.inl (place.groupCounts delivered short)
      · obtain ⟨finished, enough⟩ := not_forall.mp short
        exact Or.inr (place.groupEnds delivered finished (not_not.mp enough))

/-- An event leaves the group in its place, or finishes the last thread that it needs, or ends a
group around it. -/
theorem Settled.group_dispatch (settled : e.Settled) (quiet : hooksSucceed e.threads)
    (has : e.HasGroup path join) (event : Event) (target : List Nat) (good : Good w.host) :
    GroupCounts services event path target w join e (e.dispatch services event target w).part ∨
      GroupEnds services event path target w join e (e.dispatch services event target w).part ∨
      e.EndsAround services event path target w := by
  induction path generalizing e target with
  | nil =>
    exact (settled.group_dispatch_here reliable quiet has event target good).imp_right Or.inl
  | cons branch path ih =>
    obtain ⟨t, mem, first, rfl, inside⟩ := has.below
    obtain ⟨c, cs, around, group⟩ := settled.atGroup_of_mem mem
    cases target with
    | nil =>
      rw [group.dispatch_here settled.isRunning]
      exact Or.inl (.passed rfl has)
    | cons other deeper =>
      by_cases same : other = t.branch
      · -- The event goes further down the path, to the same thread of this group.
        subst same
        obtain ⟨before, after, threads⟩ := List.append_of_mem mem
        have place := settled.atThread group threads
        have t_settled := ((settled_iff e).mp settled).2.2 t mem
        have t_quiet := ((hooksSucceed_iff _).mp ((hooksSucceed_forall _).mp quiet t mem)).2
        obtain ⟨x, v, delivered, moved⟩ := settled.delivers reliable quiet mem event deeper good
        have below := ih t_settled t_quiet inside deeper
        rw [delivered] at below
        rcases below with counts | ends | around_ends
        · exact Or.inl (place.groupCounts_below delivered moved counts)
        · exact Or.inr (Or.inl (place.groupEnds_below delivered ends))
        · exact Or.inr (Or.inr (around_ends.below first))
      · cases searched : findThread other e.threads with
        | none =>
          obtain ⟨notice, -, passed⟩ := dispatch_nowhere services settled.isRunning group.now
            (Or.inr searched) event deeper w
          rw [passed]
          exact Or.inl (.passed (completes_beside same) has)
        | some parts =>
          obtain ⟨before, s, after⟩ := parts
          obtain ⟨threads, rfl⟩ := findThread_some searched
          have place := settled.atThread group threads
          obtain ⟨x, v, delivered, -⟩ := settled.delivers reliable quiet place.mem event deeper good
          by_cases short : x.finished = true → around.completed + 1 ≠ around.target
          · exact Or.inl (place.groupCounts_beside delivered short same has)
          · obtain ⟨finished, enough⟩ := not_forall.mp short
            refine Or.inr (Or.inr ⟨[], t.branch, path, s.branch, deeper, e, rfl, rfl, same, rfl, c,
              cs, around, before, s, after, deeper, group, rfl, threads, ?_, not_not.mp enough⟩)
            rw [delivered]
            exact finished

/-- Where a group around it ends, the group is gone. -/
theorem Settled.breaks_around (settled : e.Settled) (quiet : hooksSucceed e.threads)
    (good : Good w.host) (ends : e.EndsAround services event path target w) :
    ¬ GroupLasts path e (e.dispatch services event target w).part := by
  obtain ⟨outer, branch, inner, other, deeper, y, rfl, rfl, -, found, ends⟩ := ends
  have some_thread : y.threads ≠ [] := by
    obtain ⟨b, rest, join, before, t, after, -, -, -, threads, -⟩ := ends
    simp [threads]
  intro lasts
  exact (settled.groupLasts_iff reliable quiet found some_thread event (other :: deeper) good).mp
    lasts.outer ends

/-- The group ends with the last thread that it needs, or with a group around it. -/
theorem Settled.group_ends_iff (settled : e.Settled) (quiet : hooksSucceed e.threads)
    (has : e.HasGroup path join) (event : Event) (target : List Nat) (good : Good w.host) :
    ¬ GroupLasts path e (e.dispatch services event target w).part ↔
      (e.completes services event w path target = true ∧ join.completed + 1 = join.target) ∨
        e.EndsAround services event path target w := by
  constructor
  · intro breaks
    rcases settled.group_dispatch reliable quiet has event target good with counts | ends | around
    · exact absurd counts.lasts breaks
    · exact Or.inl ⟨ends.completes, ends.enough⟩
    · exact Or.inr around
  · rintro (⟨completes, enough⟩ | around)
    · rcases settled.group_dispatch reliable quiet has event target good with counts | ends | around
      · exact absurd enough (counts.short completes)
      · exact ends.breaks
      · exact settled.breaks_around reliable quiet good around
    · exact settled.breaks_around reliable quiet good around

end Delivery

end Execution

end Stepwise
