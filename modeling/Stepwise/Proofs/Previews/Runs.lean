import Stepwise.Proofs.Branches.Runs
import Stepwise.Proofs.Previews

/-!
# Previews

Between two calls a snapshot tells what comes after the current block, except for a condition. As
long as the host adds no blocks this stays so until the block leaves, and when it leaves, what was
shown is what comes: the next block that is entered has this text before it is entered, or the
sequence runs out without another one. Callbacks of the host may fail, which only keeps the block
from leaving.
-/

namespace Stepwise

variable {σ : Type} {Good : σ → Prop} {services : Services σ}

/-- What is shown of the blocks behind one that is no condition. -/
def Preview.of : List Block → Preview
  | [] => .final
  | b :: _ => .block b.shownText

namespace Execution

variable {x : Execution} {b : Block} {rest : List Block}

theorem snapshot_next (now : x.ahead = b :: rest) (unfinished : x.finished = false) :
    x.snapshot.next = some (if b.isCondition then .unknown else .of rest) := by
  obtain ⟨line, threads⟩ := x
  have visible : line.visible? = some b := by
    simp_all [Sequence.visible?, Sequence.current?]
  simp only [Execution.snapshot, visible, Option.map_some, Sequence.previewAfter]
  split
  · rfl
  · have next : line.next? = rest.head? := by
      rw [Sequence.next?, now, List.getElem?_cons_succ, List.head?_eq_getElem?]
    rw [next]
    cases rest <;> rfl

theorem preview_of_ne_unknown (rest : List Block) : Preview.of rest ≠ .unknown := by
  cases rest <;> exact nofun

/-- What an execution shows that runs tells whether its block is a condition. -/
theorem shows_unknown_iff (running : x.isRunning = true) (now : x.ahead = b :: rest) :
    x.snapshot.next = some .unknown ↔ b.isCondition = true := by
  rw [snapshot_next now (Sequence.unfinished_of_running running)]
  cases b.isCondition with
  | true => simp
  | false => simpa using preview_of_ne_unknown rest

theorem plain_of_shown {preview : Preview} (running : x.isRunning = true) (some_block : x.ahead ≠ [])
    (shown : x.snapshot.next = some preview) (known : preview ≠ .unknown) :
    ∃ b rest, x.ahead = b :: rest ∧ b.isCondition = false ∧ preview = .of rest := by
  obtain ⟨b, rest, now⟩ := List.exists_cons_of_ne_nil some_block
  rw [snapshot_next now (Sequence.unfinished_of_running running)] at shown
  cases condition : b.isCondition with
  | true =>
    rw [condition] at shown
    exact absurd (Option.some.inj shown).symm known
  | false =>
    rw [condition] at shown
    exact ⟨b, rest, now, condition, (Option.some.inj shown).symm⟩

end Execution

/-- What is recorded when `y` is entered, at this path and index, is what the preview says: that a
block is entered, which had this text before, or that the sequence has run out. -/
def Preview.ComesTrue (path : List Nat) (index : Nat) (y : Execution) (earlier later : List Entry) :
    Preview → Prop
  | .unknown => False
  | .block text => y.current?.map Block.shownText = some text ∧
    ∃ label, ComesNext path (.entered path index label) earlier later
  | .final => y.current? = none ∧ ComesNext path (.finished path) earlier later

theorem Preview.ComesTrue.later {path : List Nat} {index : Nat} {y : Execution}
    {first second third : List Entry} {preview : Preview}
    (comes : preview.ComesTrue path index y first second) (further : second <:+ third) :
    preview.ComesTrue path index y first third := by
  cases preview with
  | unknown => exact comes
  | block text =>
    obtain ⟨same, label, next⟩ := comes
    exact ⟨same, label, next.later further⟩
  | final => exact ⟨comes.1, comes.2.later further⟩

theorem Execution.enter_comes_true (reliable : services.Reliable Good) {y : Execution} {w : World σ}
    (unfinished : y.finished = false) (good : Good w.host) :
    (Preview.of y.ahead).ComesTrue y.address y.cursor y w.journal (y.enter services w).world.journal
    := by
  cases now : y.ahead with
  | nil =>
    refine ⟨?_, y.enter_runs_out reliable now unfinished good⟩
    rw [Sequence.current?, now]
    rfl
  | cons b rest =>
    refine ⟨?_, y.enter_enters reliable now good⟩
    rw [Sequence.current?, now]
    rfl

namespace Run

variable {r : Run σ} {path : List Nat} {x : Execution} {call : Call} {w : World σ}

/-- A call that is an event for a thread and further down performs this event on the thread. -/
theorem Performs.deeper {e : Execution} {event : Event} {deeper : List Nat} (settled : e.Settled)
    (found : e.thread? path = some x)
    (performs : r.Performs services call (.dispatch event (path ++ deeper) e) w) :
    r.Performs services call (.dispatch event deeper x) w := by
  induction path generalizing e with
  | nil =>
    cases found
    exact performs
  | cons branch path ih =>
    rw [Execution.thread?] at found
    split at found
    · next before t after searched =>
      obtain ⟨threads, -⟩ := findThread_some searched
      have mem : t ∈ e.threads := by simp [threads]
      obtain ⟨b, rest, join, group⟩ := settled.atGroup_of_mem mem
      refine ih (((Execution.settled_iff e).mp settled).2.2 t mem) found (performs.further ?_)
      exact .passes ⟨settled.isRunning, group.now, group.join?, searched⟩
    · cases found

theorem Living.performs_deeper (living : r.Living Good) (found : r.root.thread? path = some x)
    (event : Event) (deeper : List Nat) :
    r.Performs services (.dispatch (path ++ deeper) event) (.dispatch event deeper x) r.world := by
  rcases living.settled_or with settled | none
  · exact .deeper settled found (.begins (.event (path ++ deeper) event))
  · obtain ⟨rfl, rfl⟩ := Execution.thread?_threadless none found
    exact .begins (.event deeper event)

/-- The thread at the path is at the block with this index and shows this preview, and nothing has
been recorded of it since that journal. -/
structure Awaits (path : List Nat) (index : Nat) (preview : Preview) (journal : List Entry)
    (r : Run σ) : Prop where
  running : r.root.isRunning = true
  thread : ∃ x, r.root.thread? path = some x ∧ x.cursor = index ∧ x.snapshot.next = some preview
  silent : Adds (Entry.Elsewhere path) journal r.world.journal

/-- During the call the thread at the path leaves the block with this index, and then it is `y`,
which is entered in the world `v`. There the preview comes true. -/
structure LeavesTo (services : Services σ) (call : Call) (path : List Nat) (index : Nat)
    (preview : Preview) (journal : List Entry) (r : Run σ) (y : Execution) (v : World σ) : Prop where
  performs : r.Performs services call (.enter y) v
  address : y.address = path
  cursor : y.cursor = index + 1
  left : ∃ text earlier, v.journal = .left path index text :: earlier ∧
    Adds (Entry.Elsewhere path) journal earlier
  comes : preview.ComesTrue path (index + 1) y v.journal (r.perform services call).world.journal

variable {index : Nat} {preview : Preview} {journal : List Entry}

/-- An event for the thread or for one inside it. -/
theorem Rooted.awaits_reached (reliable : services.Reliable Good) (rooted : r.Rooted Good)
    (awaits : r.Awaits path index preview journal) (known : preview ≠ .unknown) (event : Event)
    (deeper : List Nat) :
    (r.perform services (.dispatch (path ++ deeper) event)).Awaits path index preview journal ∨
      ∃ y v, r.LeavesTo services (.dispatch (path ++ deeper) event) path index preview journal y v
    := by
  obtain ⟨running, ⟨x, found, rfl, shown⟩, silent⟩ := awaits
  obtain ⟨x_running, some_block⟩ := rooted.thread_runs running found
  obtain ⟨b, rest, now, plain, rfl⟩ := Execution.plain_of_shown x_running some_block shown known
  have addressed := rooted.inOrder.addressed
  have address := rooted.address_thread found
  have carries : r.root.Carries services path x := rooted.carries found
  have steps := Execution.dispatch_goesOn reliable (addressed.thread? found).1 now plain event deeper
    rooted.good
  rw [Execution.LingersOrGoesOn, address] at steps
  rcases steps with ⟨⟨c, plain_c, line⟩, still⟩ | ⟨y, v, goes_on, ends⟩
  · have runs : (x.dispatch services event deeper r.world).part.isRunning = true := by
      rw [line]
      exact x_running
    have unfinished := Sequence.unfinished_of_running runs
    have becomes : r.perform services (.dispatch (path ++ deeper) event) =
        ⟨r.root.withThread path (x.dispatch services event deeper r.world).part,
          (x.dispatch services event deeper r.world).world⟩ := by
      simp only [Run.perform, Run.dispatch, carries.delivers unfinished, ofOutcome, Outcome.within]
    rw [becomes]
    refine Or.inl ⟨?_, ⟨_, addressed.thread?_withThread found _, ?_, ?_⟩, silent.trans still⟩
    · cases path with
      | nil => exact runs
      | cons branch path =>
        rw [Execution.withThread_line]
        exact running
    · rw [line]
      rfl
    · have now' : (x.dispatch services event deeper r.world).part.ahead = c :: rest := by rw [line]
      rw [Execution.snapshot_next now' unfinished, plain_c]
      rfl
  · obtain ⟨⟨left, rfl⟩, good, ⟨text, earlier, noted, unheard⟩, performs⟩ := goes_on
    refine Or.inr ⟨_, v, performs (rooted.performs_deeper found event deeper), address, rfl,
      ⟨text, earlier, ?_, silent.trans ?_⟩, ?_⟩
    · rw [noted, address]
    · rwa [address] at unheard
    · have comes := Execution.enter_comes_true (y := ⟨x.advance left rest, []⟩) reliable
        (Sequence.unfinished_of_running x_running) good
      rw [← ends] at comes
      have at_path : (Preview.of rest).ComesTrue x.address (x.cursor + 1) _ v.journal _ := comes
      rw [address] at at_path
      exact at_path.later (carries.onward (fun _ => True) event deeper r.world).suffix

/-- A call that adds no blocks lets the thread wait on, or the preview comes true, or the thread is
cancelled. -/
theorem Rooted.awaits_perform (reliable : services.Reliable Good) (rooted : r.Rooted Good)
    (awaits : r.Awaits path index preview journal) (known : preview ≠ .unknown) (call : Call)
    (adds_none : call.added? = none) :
    (r.perform services call).Awaits path index preview journal ∨
      (∃ y v, r.LeavesTo services call path index preview journal y v) ∨
      r.Cancels services path call := by
  have aside {v : World σ} (adds : Adds (Entry.IsProgress (fun _ => False) False) r.world.journal
      v.journal) : Run.Awaits path index preview journal { r with world := v } :=
    ⟨awaits.running, awaits.thread,
      awaits.silent.trans (adds.mono fun _ progress => progress.elsewhere not_false)⟩
  cases call with
  | start =>
    have started : r.root.started = true := by
      have running := awaits.running
      simp only [Sequence.isRunning, Bool.and_eq_true] at running
      exact running.1.1
    simp only [Run.perform, Run.start, started, if_true]
    exact Or.inl awaits
  | dispatch target event =>
    by_cases reaches : path <+: target
    · obtain ⟨deeper, rfl⟩ := reaches
      exact (rooted.awaits_reached reliable awaits known event deeper).imp_right Or.inl
    · obtain ⟨x, found, same, shown⟩ := awaits.thread
      have address := rooted.address_thread found
      obtain ⟨branch, inner, rfl⟩ : ∃ branch inner, path = branch :: inner :=
        List.exists_cons_of_ne_nil fun none => reaches (none ▸ List.nil_prefix)
      have some_thread : r.root.threads ≠ [] := by
        obtain ⟨t, mem, -⟩ := Execution.thread?_found found
        exact List.ne_nil_of_mem mem
      obtain ⟨settled, quiet⟩ := rooted.staffed.threads some_thread
      rcases Execution.thread?_aside reliable settled quiet rooted.inOrder.addressed found event
        reaches rooted.good with ⟨found', silent⟩ | ends
      · rw [address] at silent
        have rooted' := rooted.perform reliable (.dispatch target event)
        obtain ⟨t, mem, -⟩ := Execution.thread?_found found'
        have running' := (rooted'.staffed.threads (List.ne_nil_of_mem mem)).1.isRunning
        exact Or.inl ⟨running', ⟨x, found', same, shown⟩, awaits.silent.trans silent⟩
      · exact Or.inr (Or.inr ⟨target, event, rfl, ends⟩)
  | push block => cases adds_none
  | splice blocks => cases adds_none
  | requestPause => exact Or.inl (aside (World.requestPause_adds r.world))
  | releasePause token => exact Or.inl (aside (World.releasePause_adds token r.world).progress)

/-- Calls that add no blocks let the thread wait on, up to one in which the preview comes true or
the thread is cancelled. -/
theorem Rooted.awaits_after (reliable : services.Reliable Good) (rooted : r.Rooted Good)
    (awaits : r.Awaits path index preview journal) (known : preview ≠ .unknown) (more : List Call)
    (adds_none : ∀ call ∈ more, call.added? = none) :
    (r.after services more).Awaits path index preview journal ∨
      ∃ earlier call further, more = earlier ++ call :: further ∧
        (r.after services earlier).Awaits path index preview journal ∧
        ((∃ y v, (r.after services earlier).LeavesTo services call path index preview journal y v) ∨
          (r.after services earlier).Cancels services path call) := by
  induction more generalizing r with
  | nil => exact Or.inl awaits
  | cons call more ih =>
    rcases rooted.awaits_perform reliable awaits known call (adds_none call List.mem_cons_self)
      with awaits' | moves
    · rcases ih (rooted.perform reliable call) awaits'
          fun c mem => adds_none c (List.mem_cons_of_mem call mem)
        with waits | ⟨earlier, last, further, rfl, before, moves⟩
      · exact Or.inl waits
      · exact Or.inr ⟨call :: earlier, last, further, rfl, before, moves⟩
    · exact Or.inr ⟨[], call, more, rfl, awaits, moves⟩

/-- The snapshot of the run shows the thread `x` at the path. What it shows as next is unknown just
after a condition. Otherwise it is what comes when the block leaves, unless the thread is cancelled
before: no call that adds no blocks changes that. -/
structure Foresees (services : Services σ) (path : List Nat) (x : Execution) (r : Run σ) : Prop where
  shows : r.root.snapshot.Shows path x.snapshot
  next : ∃ preview, x.snapshot.next = some preview
  unknown_iff : x.snapshot.next = some .unknown ↔ ∃ b ∈ x.current?, b.isCondition = true
  comes : ∀ preview, x.snapshot.next = some preview → preview ≠ .unknown →
    ∀ more, (∀ call ∈ more, call.added? = none) →
      (r.after services more).Awaits path x.cursor preview r.world.journal ∨
      ∃ earlier call further, more = earlier ++ call :: further ∧
        (r.after services earlier).Awaits path x.cursor preview r.world.journal ∧
        ((∃ y v, (r.after services earlier).LeavesTo services call path x.cursor preview
            r.world.journal y v) ∨
          (r.after services earlier).Cancels services path call)

theorem preview_comes_true (reliable : services.Reliable Good) {blocks : List HostBlock}
    (fresh : r.Fresh blocks) (good : Good r.world.host) (calls : List Call)
    (running : (r.after services calls).root.isRunning = true)
    (found : (r.after services calls).root.thread? path = some x) :
    (r.after services calls).Foresees services path x := by
  have rooted : (r.after services calls).Rooted Good := fresh.rooted_after reliable good calls
  obtain ⟨x_running, some_block⟩ := rooted.thread_runs running found
  obtain ⟨b, rest, ahead⟩ := List.exists_cons_of_ne_nil some_block
  have shown := Execution.snapshot_next ahead (Sequence.unfinished_of_running x_running)
  refine ⟨(rooted.shows_iff path _).mpr ⟨x, found, rfl⟩, ⟨_, shown⟩, ?_, ?_⟩
  · rw [Execution.shows_unknown_iff x_running ahead, Sequence.current?, ahead]
    simp
  · intro preview shown known more adds_none
    exact rooted.awaits_after reliable ⟨running, ⟨x, found, rfl, shown⟩, .refl _ _⟩ known more
      adds_none

/-- A group that needs one of its two threads, before a loop. -/
def potOfTea : Run InMemory :=
  .ofWorkflow ⟨"tea", none, none,
    [.parallel "pot" 1 [[.task "steep", .task "pour"], [.task "stir"]],
      .counted 2 [.task "sip"]]⟩ .empty

/-- The blocks that the root has entered, the latest first, with their texts then. -/
def arrivals (r : Run σ) : List (Nat × String) :=
  r.world.journal.filterMap fun
    | .entered [] index text => some (index, text)
    | _ => none

/-- The group leaves in a call for one of its threads. The loop behind it shows one pass more once
it has been entered. -/
theorem preview_comes_true_potOfTea :
    let now := potOfTea.after InMemory.services [.start]
    let later := now.after InMemory.services [.dispatch [1] .done]
    (now.root.isRunning = true ∧ now.root.snapshot.next = some (.block "2 more times...") ∧
      later.arrivals = [(2, "sip"), (1, "3 more times..."), (0, "pot")]) ∧
    now.Foresees InMemory.services [] now.root := by
  refine ⟨by decide +kernel, ?_⟩
  exact preview_comes_true InMemory.reliable (fresh_ofWorkflow _ _) InMemory.willing_empty [.start]
    (by decide +kernel) rfl

end Run

end Stepwise
