import Stepwise.Proofs.Needed

/-!
# Groups that count down

Through the calls of a run a group counts the threads that the calls finish. It ends in the call
that finishes the last one needed, unless a group around it ends before. A group that asks for one
thread at least and for no more than it has shows how many it needs at any time. One that asks for
none shows none, and one that asks for more than it has shows more than are left: both end with
their last thread.
-/

namespace Stepwise

variable {σ : Type} {Good : σ → Prop} {services : Services σ}

namespace Execution

variable {e : Execution} {path : List Nat} {join : Join}

/-- At most blocks were put behind the current one. -/
structure Extended (e e' : Execution) : Prop where
  cursor : e'.cursor = e.cursor
  threads : e'.threads = e.threads
  current : ∀ b rest, e.ahead = b :: rest → ∃ rest', e'.ahead = b :: rest'

theorem Extended.refl (e : Execution) : Extended e e :=
  ⟨rfl, rfl, fun _ rest now => ⟨rest, now⟩⟩

theorem Extended.hasGroup {e' : Execution} (extended : Extended e e')
    (has : e.HasGroup path join) : e'.HasGroup path join := by
  obtain ⟨x, b, rest, found, group, some_thread⟩ := has
  cases path with
  | nil =>
    cases found
    obtain ⟨rest', now⟩ := extended.current b rest group.now
    exact ⟨e', b, rest', rfl, ⟨now, group.activity⟩, extended.threads ▸ some_thread⟩
  | cons branch path =>
    rw [thread?_cons, ← extended.threads, ← thread?_cons] at found
    exact ⟨x, b, rest, found, group, some_thread⟩

/-- What is shown of a group, and how it stands to the number of threads that the group needs. -/
structure ShowsNeeded (x : Execution) (join : Join) : Prop where
  shown : x.snapshot.current.map (fun view => (view.todo, view.remaining)) =
    some (some join.todo, some x.threads.length)
  some_needed : 1 ≤ join.needed
  enough_left : join.needed ≤ x.threads.length
  right_iff : join.todo = join.needed ↔ 1 ≤ join.choose ∧ join.choose ≤ join.branches.length
  none_shown : join.choose = 0 → join.todo = 0
  more_shown : join.branches.length < join.choose → x.threads.length < join.todo

theorem Settled.showsNeeded {b : Block} {rest : List Block} (settled : e.Settled)
    (group : e.AtGroup b rest join) : e.ShowsNeeded join := by
  have is_open := settled.at_group group
  refine ⟨?_, is_open.needed_pos, is_open.needed_le, is_open.todo_eq_needed_iff,
    Join.todo_of_choose_zero, is_open.lt_todo_of_lt_choose⟩
  obtain ⟨line, threads⟩ := e
  have unfinished : line.finished = false := settled.unfinished
  have current : line.current? = some b := by
    rw [Sequence.current?, group.now]
    rfl
  have visible : line.visible? = some b := by
    simp only [Sequence.visible?, unfinished, current, Bool.false_eq_true, if_false]
  simp only [Execution.snapshot, visible, BlockView.of, group.join?, Option.map_some]

end Execution

namespace Run

variable {r : Run σ} {path : List Nat} {join : Join}

/-- The call finishes a thread of the group at the path. -/
def completes (services : Services σ) (path : List Nat) (r : Run σ) : Call → Bool
  | .dispatch target event => r.root.completes services event r.world path target
  | _ => false

/-- How many threads of the group at the path the calls finish. -/
def completions (services : Services σ) (path : List Nat) : Run σ → List Call → Nat
  | _, [] => 0
  | r, call :: calls =>
    (r.completes services path call).toNat +
      (r.perform services call).completions services path calls

/-- The group at the path is there after each of the calls. -/
def GroupRemains (services : Services σ) (path : List Nat) : Run σ → List Call → Prop
  | _, [] => True
  | r, call :: calls =>
    Execution.GroupLasts path r.root (r.perform services call).root ∧
      (r.perform services call).GroupRemains services path calls

instance decidableGroupRemains (services : Services σ) (path : List Nat) :
    (r : Run σ) → (calls : List Call) → Decidable (r.GroupRemains services path calls)
  | _, [] => instDecidableTrue
  | r, call :: calls =>
    have := decidableGroupRemains services path (r.perform services call) calls
    inferInstanceAs (Decidable (_ ∧ _))

/-- What a call does to the group at the path. -/
structure GroupGoesOn (services : Services σ) (path : List Nat) (join : Join) (r : Run σ)
    (call : Call) : Prop where
  ends_iff : ¬ Execution.GroupLasts path r.root (r.perform services call).root ↔
    (r.completes services path call = true ∧ join.completed + 1 = join.target) ∨
      r.Cancels services path call
  counts : Execution.GroupLasts path r.root (r.perform services call).root →
    (r.perform services call).root.HasGroup path
      (join.counted (r.completes services path call).toNat)

/-- A call that is no event leaves the group as it is. -/
theorem GroupGoesOn.of_no_event {call : Call} (has : r.root.HasGroup path join)
    (no_event : ∀ target event, call ≠ .dispatch target event)
    (extended : r.root.Extended (r.perform services call).root) :
    r.GroupGoesOn services path join call := by
  have none : r.completes services path call = false := by
    cases call with
    | dispatch target event => exact absurd rfl (no_event target event)
    | _ => rfl
  refine ⟨⟨absurd (Execution.groupLasts_same extended.cursor extended.threads has), ?_⟩,
    fun _ => ?_⟩
  · rintro (⟨completes, -⟩ | ⟨target, event, same, -⟩)
    · exact absurd (none.symm.trans completes) Bool.false_ne_true
    · exact absurd same (no_event target event)
  · rw [none]
    exact extended.hasGroup has

theorem Living.group_perform (reliable : services.Reliable Good) (living : r.Living Good)
    (has : r.root.HasGroup path join) (call : Call) : r.GroupGoesOn services path join call := by
  obtain ⟨settled, quiet⟩ := living.staffed.threads has.threads
  cases call with
  | start =>
    have started : r.root.started = true := by
      have running := settled.isRunning
      simp only [Sequence.isRunning, Bool.and_eq_true] at running
      exact running.1.1
    refine .of_no_event has (by rintro _ _ ⟨⟩) ?_
    simp only [perform, start, started, if_true]
    exact .refl _
  | dispatch target event =>
    refine ⟨?_, fun lasts => ?_⟩
    · refine (settled.group_ends_iff reliable quiet has event target living.good).trans
        (or_congr_right ⟨fun ends => ⟨target, event, rfl, ends⟩, ?_⟩)
      rintro ⟨target', event', same, ends⟩
      cases same
      exact ends
    · rcases settled.group_dispatch reliable quiet has event target living.good
        with counts | ends | around
      · exact counts.counted
      · exact absurd lasts ends.breaks
      · exact absurd lasts (settled.breaks_around reliable quiet living.good around)
  | push c =>
    refine .of_no_event has (by rintro _ _ ⟨⟩) ⟨rfl, rfl, ?_⟩
    exact fun b rest now => ⟨_, Sequence.ahead_push now c.block⟩
  | splice blocks =>
    refine .of_no_event has (by rintro _ _ ⟨⟩) ?_
    rw [perform, splice, Sequence.splice_eq]
    exact ⟨rfl, rfl, fun b rest now => ⟨_, Sequence.ahead_splice now _⟩⟩
  | requestPause => exact .of_no_event has (by rintro _ _ ⟨⟩) (.refl _)
  | releasePause token => exact .of_no_event has (by rintro _ _ ⟨⟩) (.refl _)

/-- A group that is still there has counted all the threads that were finished. -/
theorem Living.group_after (reliable : services.Reliable Good) (living : r.Living Good)
    (has : r.root.HasGroup path join) (more : List Call)
    (remains : r.GroupRemains services path more) :
    (r.after services more).Living Good ∧
      (r.after services more).root.HasGroup path
        (join.counted (r.completions services path more)) := by
  induction more generalizing r join with
  | nil => exact ⟨living, has⟩
  | cons call more ih =>
    obtain ⟨lasts, remains⟩ := remains
    have counted := (living.group_perform reliable has call).counts lasts
    obtain ⟨living', has'⟩ := ih (living_perform reliable r call living) counted remains
    rw [Join.counted_counted] at has'
    exact ⟨living', has'⟩

/-- The group at the path ends with so many threads more as it needs, and with no fewer. -/
structure EndsAsNeeded (services : Services σ) (path : List Nat) (join : Join) (r : Run σ)
    (more : List Call) : Prop where
  short : r.completions services path more < join.needed
  counted : (r.after services more).root.HasGroup path
    (join.counted (r.completions services path more))
  ends_iff : ∀ call, ¬ Execution.GroupLasts path (r.after services more).root
      ((r.after services more).perform services call).root ↔
    ((r.after services more).completes services path call = true ∧
      r.completions services path more + 1 = join.needed) ∨
      (r.after services more).Cancels services path call

theorem Living.endsAsNeeded (reliable : services.Reliable Good) (living : r.Living Good)
    (has : r.root.HasGroup path join) (more : List Call)
    (remains : r.GroupRemains services path more) : r.EndsAsNeeded services path join more := by
  obtain ⟨living', has'⟩ := living.group_after reliable has more remains
  obtain ⟨settled, -⟩ := living'.staffed.threads has'.threads
  obtain ⟨threads, is_open⟩ := settled.open_of_hasGroup has'
  have short := is_open.short
  rw [Join.counted_target] at short
  have reached : (join.counted (r.completions services path more)).completed + 1 = join.target ↔
      r.completions services path more + 1 = join.needed := by
    simp only [Join.counted, Join.needed] at short ⊢
    omega
  refine ⟨?_, has', fun call => ?_⟩
  · simp only [Join.counted, Join.needed] at short ⊢
    omega
  · rw [← reached]
    exact (living'.group_perform reliable has' call).ends_iff

variable {x : Execution} {b : Block} {rest : List Block}

/-- A group that is current in a run waits for threads. What it shows is how many more of them it
needs, unless it asks for none of them or for more than it has, and it ends with just so many. -/
theorem group_counts_down (reliable : services.Reliable Good) {blocks : List HostBlock}
    (fresh : r.Fresh blocks) (good : Good r.world.host) (calls : List Call)
    (found : (r.after services calls).root.thread? path = some x) (group : x.AtGroup b rest join) :
    let now := r.after services calls
    (now.root.isRunning = true → (∀ c ∈ blocks, c.Succeeds) → (∀ call ∈ calls, call.Succeeds) →
      x.threads ≠ []) ∧
    (x.threads ≠ [] → x.ShowsNeeded join ∧ ∀ more, now.GroupRemains services path more →
      now.EndsAsNeeded services path join more) := by
  intro now
  refine ⟨?_, fun some_thread => ?_⟩
  · intro running succeed all
    have sound := fresh.sound_after reliable succeed good calls all
    exact (((sound.settled running).thread? found).at_group group).ne_nil
  · have living := fresh.living_after reliable good calls
    have has : now.root.HasGroup path join := ⟨x, b, rest, found, group, some_thread⟩
    obtain ⟨settled, -⟩ := living.staffed.threads has.threads
    exact ⟨(settled.thread? found).showsNeeded group, living.endsAsNeeded reliable has⟩

/-- A group of three threads. -/
def threePans (choose : UInt64) : Run InMemory :=
  .ofWorkflow ⟨"lunch", none, none, [.parallel "pans" choose
    [[.task "rice"], [.task "beans"], [.task "corn"]]]⟩ .empty

/-- The group asks for two of its threads: when one has finished it shows that it needs one more. -/
theorem group_counts_down_threePans :
    let now := (threePans 2).after InMemory.services [.start, .dispatch [1] .done]
    let join : Join := ⟨[[.task "rice"], [.task "beans"], [.task "corn"]], 2, 1, false⟩
    (now.root.isRunning = true ∧ now.root.threads.map (·.branch) = [0, 2] ∧ join.needed = 1 ∧
      now.GroupRemains InMemory.services [] [.dispatch [1] .done] ∧
      now.completions InMemory.services [] [.dispatch [1] .done] = 0 ∧
      now.completes InMemory.services [] (.dispatch [2] .done) = true) ∧
    now.root.ShowsNeeded join ∧
    ∀ more, now.GroupRemains InMemory.services [] more →
      now.EndsAsNeeded InMemory.services [] join more := by
  intro now join
  refine ⟨by decide +kernel, ?_⟩
  let pans : Template := .parallel "pans" 2 join.branches
  have group : now.root.AtGroup { Block.ofTemplate pans with activity := .parallel join } [] join :=
    ⟨by decide +kernel, rfl⟩
  have found : now.root.thread? [] = some now.root := rfl
  have counts := group_counts_down InMemory.reliable (fresh_ofWorkflow _ _) InMemory.willing_empty
    [.start, .dispatch [1] .done] found group
  refine counts.2 (counts.1 (by decide +kernel) ?_ ?_)
  · intro b mem
    obtain ⟨t, -, rfl⟩ := List.mem_map.mp mem
    exact HostBlock.succeeds_plain t
  · intro call mem
    rcases List.mem_pair.mp mem with rfl | rfl <;> trivial

/-- What a run shows of the group at its root: how many threads it says it needs, and how many there
are. -/
def shownCount (r : Run σ) : Option (Option Nat × Option Nat) :=
  r.root.snapshot.current.map fun view => (view.todo, view.remaining)

/-- A group that asks for none of its three threads shows that it needs none, and one that asks for
five shows that it needs five. Both remain when two have finished, and end with the third. -/
theorem threePans_shown_wrong :
    let none := (threePans 0).after InMemory.services [.start]
    let five := (threePans 5).after InMemory.services [.start]
    let two : List Call := [.dispatch [0] .done, .dispatch [1] .done]
    none.shownCount = some (some 0, some 3) ∧ five.shownCount = some (some 5, some 3) ∧
    ∀ now ∈ [none, five], now.GroupRemains InMemory.services [] two ∧
      now.completions InMemory.services [] two = 2 ∧
      let last := now.after InMemory.services two
      last.completes InMemory.services [] (.dispatch [2] .done) = true ∧
        ¬ Execution.GroupLasts [] last.root
          (last.perform InMemory.services (.dispatch [2] .done)).root := by
  decide +kernel

end Run

end Stepwise
