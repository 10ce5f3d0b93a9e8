import Stepwise.Proofs.History

/-!
# Live threads

The callbacks of a host may fail also where its services do not. They belong to blocks of the root,
so a call on a run may break off at the root, which then has no threads, but not in a thread. So the
threads that are there wait for an event, whatever the callbacks do.
-/

namespace Stepwise

variable {σ : Type} {Good : σ → Prop} {services : Services σ} {w : World σ}

section Leaving

variable (reliable : services.Reliable Good)
include reliable

theorem LeaveHook.runAll_good (hooks : List LeaveHook) (good : Good w.host) :
    Good (runAll services hooks w).world.host := by
  induction hooks generalizing w with
  | nil => exact good
  | cons hook rest ih =>
    cases hook with
    | removeReminder id =>
      obtain ⟨v, removed, good_v⟩ := World.removeReminder_ok reliable.calm id good
      simp only [runAll, run, removed]
      exact ih good_v
    | custom name failure =>
      cases failure with
      | none => exact ih good
      | some error => exact good

theorem Block.leave_good (b : Block) (good : Good w.host) :
    Good (b.leave services w).world.host := by
  obtain ⟨v, wrapped, good_v⟩ := b.wrapUp_ok reliable good
  have hooks : ∀ (b : Block) (v : World σ), Good v.host → Good (b.runHooks services v).world.host :=
    fun b v => LeaveHook.runAll_good reliable b.hooks
  simp only [leave, wrapped, Outcome.bind, discard, unregister]
  cases b.handle with
  | none => exact hooks _ v good_v
  | some id =>
    obtain ⟨u, removed, good_u⟩ := World.removeReminder_ok reliable.calm id good_v
    simp only [removed]
    exact hooks _ u good_u

end Leaving

/-- Only a group has threads. -/
theorem Block.Hosts.join? {b : Block} {threads : List Thread} (hosts : b.Hosts threads)
    (some_thread : threads ≠ []) : b.join? ≠ none := by
  unfold Block.Hosts at hosts
  unfold Block.join?
  cases activity : b.activity with
  | task | condition | asked =>
    rw [activity] at hosts
    exact absurd hosts some_thread
  | sleep s =>
    rw [activity] at hosts
    exact absurd hosts.2 some_thread
  | counted remaining entered body =>
    rw [activity] at hosts
    exact False.elim hosts
  | parallel join => exact Option.some_ne_none join

namespace Execution

variable {e : Execution} {b : Block} {rest ahead : List Block}

/-- An execution that runs has a current block, and if it has threads then it waits for an event and
so does each of them. -/
structure Staffed (e : Execution) : Prop where
  current : e.isRunning = true → e.ahead ≠ []
  threads : e.threads ≠ [] → e.Settled ∧ hooksSucceed e.threads

theorem Staffed.of_block (now : e.ahead = b :: rest) (none : e.threads = []) : e.Staffed where
  current _ := by
    rw [now]
    exact List.cons_ne_nil b rest
  threads some_thread := absurd none some_thread

theorem Staffed.of_settled (settled : e.Settled) (quiet : hooksSucceed e.threads) : e.Staffed where
  current _ := by
    obtain ⟨-, ⟨b, rest, now, -⟩, -⟩ := (settled_iff e).mp settled
    rw [now]
    exact List.cons_ne_nil b rest
  threads _ := ⟨settled, quiet⟩

/-- What an operation leaves is staffed, and the host goes on to answer. -/
def LeavesStaffed (Good : σ → Prop) (o : Outcome σ Execution Unit) : Prop :=
  o.part.Staffed ∧ Good o.world.host

/-- A block that has arrived is answered. Its threads all wait, and if it leaves at once then it has
none. -/
def ArrivesStaffed (services : Services σ) (Good : σ → Prop) (address : List Nat) (b : Block)
    (w : World σ) : Prop :=
  ∃ leaves arrived threads w',
    Block.arrive services address b w = ⟨.ok leaves, (arrived, threads), w'⟩ ∧ Good w'.host ∧
    (leaves = true → threads = []) ∧
    (threads ≠ [] → arrived.Hosts threads ∧ settledAll threads ∧ hooksSucceed threads)

theorem ArrivesStaffed.threadless {address : List Nat} {leaves : Bool} {arrived : Block}
    {w' : World σ} (arrives : Block.arrive services address b w = ⟨.ok leaves, (arrived, []), w'⟩)
    (good : Good w'.host) : ArrivesStaffed services Good address b w :=
  ⟨leaves, arrived, [], w', arrives, good, fun _ => rfl, fun some_thread => absurd rfl some_thread⟩

section Entering

variable (reliable : services.Reliable Good)
include reliable

theorem arrive_staffed (b : Block) (address : List Nat) (good : Good w.host) :
    ArrivesStaffed services Good address b w := by
  have waits (waits : b.Waits) : ArrivesStaffed services Good address b w := by
    obtain ⟨b', w', arrives, good', -⟩ := Block.arrive_waits reliable waits address good
    exact .threadless arrives good'
  cases activity : b.activity with
  | task | condition | asked => exact waits (by simp [Block.Waits, activity])
  | counted remaining entered body =>
    have arrives := Block.arrive_counted services address w activity
    split at arrives
    · exact .threadless arrives good
    · exact .threadless arrives good
  | sleep s =>
    by_cases positive : 0 < s.value
    · exact waits (by simpa [Block.Waits, activity] using positive)
    · exact .threadless (Block.arrive_elapsed services address w activity positive) good
  | parallel join =>
    by_cases branchless : join.branches = []
    · exact .threadless (Block.arrive_branchless services address w activity branchless) good
    · have good_opened : Good (w.noteOpened join.branches).host := by
        rwa [World.host_noteOpened]
      obtain ⟨counted, threads, w', run, good', ended, stays⟩ :=
        startThreads_lands reliable (fun templates _ => branch_starts reliable address templates)
          (Join.starting_opened branchless) trivial good_opened
      refine ⟨decide (join.opened.target ≤ join.opened.completed + instantBranches join.branches),
        { b with activity := .parallel counted }, threads, w', ?_, good', ?_, ?_⟩
      · rw [Block.arrive_group services address w activity branchless, Join.threads, run]
        rfl
      · intro enough
        exact (ended (of_decide_eq_true enough)).2
      · intro some_thread
        by_cases enough : join.opened.target ≤ join.opened.completed + instantBranches join.branches
        · exact absurd (ended enough).2 some_thread
        · obtain ⟨-, is_open, new, same, started⟩ := stays (Nat.not_le.mp enough)
          rw [List.nil_append] at same
          subst same
          obtain ⟨settled, quiet, -⟩ := threadsLand started
          exact ⟨is_open, settled, quiet⟩

theorem enter_staffed (e : Execution) (running : e.isRunning = true) (none : e.threads = [])
    (good : Good w.host) : LeavesStaffed Good (e.enter services w) := by
  induction e using enter_induction generalizing w with
  | nil e now =>
    have unfinished : e.finished = false := Sequence.unfinished_of_running running
    obtain ⟨w', entered, good'⟩ := enter_nil reliable.calm now unfinished good
    rw [entered]
    refine ⟨⟨?_, fun some => absurd rfl some⟩, good'⟩
    intro runs
    simp [Sequence.isRunning] at runs
  | cons e b rest now goes_on _ =>
    obtain ⟨handle, v, good_v, entered⟩ := enter_cons reliable.calm now good
    obtain ⟨leaves, arrived, threads, u, arrives, good_u, gone, hosts⟩ :=
      arrive_staffed reliable { b with handle } e.address good_v
    rw [entered, arrives, Outcome.bind_ok]
    cases leaves with
    | false =>
      refine ⟨?_, good_u⟩
      by_cases empty : threads = []
      · exact .of_block rfl empty
      · obtain ⟨hosts, settled, quiet⟩ := hosts empty
        refine .of_settled ((settled_iff _).mpr ⟨running, ⟨arrived, rest, rfl, hosts⟩, ?_⟩) quiet
        exact (settledAll_forall threads).mp settled
    | true =>
      have good_left := arrived.leave_good (w := e.noteEntered arrived u) reliable good_u
      simp only [if_true]
      refine Outcome.bind_left (P := fun e w => Staffed e ∧ Good w.host) ?_ ?_
      · exact ⟨.of_block rfl rfl, good_left⟩
      · intro _ _
        exact goes_on _ handle running rfl good_left

/-- The current block leaves, after its threads were cancelled. -/
theorem leave_staffed (running : e.isRunning = true) (quiet : hooksSucceed e.threads)
    (good : Good w.host) : LeavesStaffed Good (e.leave services b ahead w) := by
  obtain ⟨v, cancelled, good_v⟩ := cancelThreads_ok reliable quiet good
  have good_left := b.leave_good reliable good_v
  rw [leave, cancelled, Outcome.bind_ok]
  refine Outcome.bind_left (P := fun e w => Staffed e ∧ Good w.host) ?_ ?_
  · exact ⟨.of_block rfl rfl, good_left⟩
  · intro _ _
    exact enter_staffed reliable _ running rfl good_left

/-- A block takes an event or passes over it, and a group passes over all. -/
theorem react_stands (b : Block) (event : Event) (good : Good w.host) :
    ∃ reaction b' w', b.react services event w = ⟨.ok reaction, b', w'⟩ ∧ Good w'.host ∧
      (b.join? ≠ none → reaction = .stay ∧ b' = b) := by
  have answers (loop : LoopKind) (body : List Template) (yes : Bool)
      (activity : b.activity = .asked loop body) : ∃ reaction b' w',
      b.answer loop body yes w = ⟨.ok reaction, b', w'⟩ ∧ Good w'.host ∧
      (b.join? ≠ none → reaction = .stay ∧ b' = b) := by
    have no_group : b.join? = none := by simp only [Block.join?, activity]
    unfold Block.answer
    split
    · exact ⟨_, _, w.noteBuilt body, rfl, good, absurd no_group⟩
    · exact ⟨_, _, w, rfl, good, absurd no_group⟩
  unfold Block.react
  split
  · next activity => exact ⟨_, _, w, rfl, good, absurd (by simp only [Block.join?, activity])⟩
  · next onYes onNo activity =>
    exact ⟨_, _, w.noteBuilt onYes, rfl, good, absurd (by simp only [Block.join?, activity])⟩
  · next onYes onNo activity =>
    exact ⟨_, _, w.noteBuilt onNo, rfl, good, absurd (by simp only [Block.join?, activity])⟩
  · next activity => exact answers _ _ true activity
  · next activity => exact answers _ _ false activity
  · next activity => exact ⟨_, _, w, rfl, good, absurd (by simp only [Block.join?, activity])⟩
  · next activity => exact ⟨_, _, w, rfl, good, absurd (by simp only [Block.join?, activity])⟩
  · next activity =>
    obtain ⟨w', forced, good'⟩ := World.ask_ok reliable.forceFinish .forceFinish good
    simp only [World.forceFinish, forced]
    exact ⟨_, _, w', rfl, good', absurd (by simp only [Block.join?, activity])⟩
  · exact ⟨_, _, _, rfl, good, fun _ => ⟨rfl, rfl⟩⟩

/-- A thread of the group has become `x`, and now the group goes on. -/
theorem afterThread_staffed (settled : e.Settled) (quiet : hooksSucceed e.threads)
    (now : e.ahead = b :: rest) {join : Join} (group : b.join? = some join)
    {before after : List Thread} {t : Thread} (threads : e.threads = before ++ t :: after)
    {x : Execution} (moved : t.execution.Becomes x) (good : Good w.host) :
    LeavesStaffed Good
      (e.afterThread services b rest join before after { t with execution := x } w) := by
  obtain ⟨running, ⟨c, cs, now', hosts⟩, others⟩ := (settled_iff e).mp settled
  obtain ⟨rfl, rfl⟩ := List.cons.inj (now.symm.trans now')
  obtain ⟨activity, is_open⟩ := join_open hosts group
  rw [threads] at is_open quiet
  rw [← settledAll_forall, threads, settledAll_append, settledAll_cons] at others
  rw [hooksSucceed_append, hooksSucceed_cons] at quiet
  have others_quiet := (hooksSucceed_append _ _).mpr ⟨quiet.1, quiet.2.2⟩
  have others_settled := (settledAll_append _ _).mpr ⟨others.1, others.2.2⟩
  rcases moved.rests with spent | settled_x
  · by_cases enough : join.completed + 1 = join.target
    · obtain ⟨v, cancelled, good_v⟩ := cancelThreads_ok reliable others_quiet good
      have completed :=
        Join.complete_ends (is_open.ends_iff.mpr enough) is_open.undone cancelled
      simp only [afterThread, spent.finished, if_true, completed, Outcome.bind]
      let full : Join := { join with completed := join.completed + 1, done := true }
      exact leave_staffed (e := ⟨{ e.toSequence with
        ahead := { b with activity := .parallel full } :: rest }, []⟩) reliable running trivial good_v
    · rw [afterThread_stays spent.finished is_open enough]
      exact ⟨.of_settled (settled.with_block (is_open.remove enough) others_settled) others_quiet,
        good⟩
  · rw [afterThread_runs settled_x.unfinished]
    refine ⟨.of_settled ?_ ?_, good⟩
    · refine (settled_iff _).mpr ⟨running, ⟨b, rest, now, ?_⟩, (settledAll_forall _).mp
        ((settledAll_append _ _).mpr ⟨others.1, settled_x, others.2.2⟩)⟩
      simpa only [Block.Hosts, activity] using is_open.replace x
    · exact (hooksSucceed_append _ _).mpr ⟨quiet.1, moved.hooks, quiet.2.2⟩

theorem dispatch_staffed (staffed : e.Staffed) (event : Event) (path : List Nat)
    (good : Good w.host) : LeavesStaffed Good (e.dispatch services event path w) := by
  refine dispatch_cases path (fun notice => ⟨staffed, good⟩) ?here ?thread
  case here =>
    intro b rest running now
    obtain ⟨reaction, b', v, reacted, good_v, group⟩ := react_stands reliable b event good
    rw [reacted, Outcome.bind_ok]
    by_cases none : e.threads = []
    · cases reaction with
      | stay => exact ⟨.of_block rfl none, good_v⟩
      | leave after =>
        refine leave_staffed reliable running ?_ good_v
        rw [none]
        trivial
    · -- Only a group has threads, and a group stays as it is.
      obtain ⟨settled, quiet⟩ := staffed.threads none
      obtain ⟨-, ⟨c, cs, now', hosts⟩, others⟩ := (settled_iff e).mp settled
      obtain ⟨rfl, rfl⟩ := List.cons.inj (now.symm.trans now')
      obtain ⟨rfl, rfl⟩ := group (hosts.join? none)
      exact ⟨.of_settled (settled.with_block hosts ((settledAll_forall _).mpr others)) quiet,
        good_v⟩
  case thread =>
    intro b rest join before t after further running now group threads _
    have some_thread : e.threads ≠ [] := by simp [threads]
    obtain ⟨settled, quiet⟩ := staffed.threads some_thread
    have mem : t ∈ e.threads := by simp [threads]
    have t_settled := ((settled_iff e).mp settled).2.2 t mem
    have t_quiet := (hooksSucceed_forall _).mp quiet t mem
    obtain ⟨x, v, delivered, good_v, moved⟩ :=
      dispatch_becomes reliable t_settled t_quiet event further good
    rw [delivered, Outcome.bind_ok]
    exact afterThread_staffed reliable settled quiet now group threads moved good_v

end Entering

end Execution

namespace Run

/-- The host goes on to answer, and the root is staffed. -/
structure Living (Good : σ → Prop) (r : Run σ) : Prop where
  good : Good r.world.host
  inOrder : r.InOrder
  staffed : r.root.Staffed

variable {r : Run σ}

theorem living_start (reliable : services.Reliable Good) (living : r.Living Good) :
    (r.start services).2.root.Staffed ∧ Good (r.start services).2.world.host := by
  unfold start
  cases started : r.root.started with
  | true => exact ⟨living.staffed, living.good⟩
  | false =>
    obtain ⟨unfinished, uncancelled, none⟩ := living.inOrder.unstarted started
    have entered (handle : Option Nat) (w : World σ) (good : Good w.host) :
        Execution.LeavesStaffed Good
          (Execution.enter services { r.root with started := true, handle } w) := by
      refine Execution.enter_staffed reliable _ ?_ none good
      simp [Sequence.isRunning, unfinished, uncancelled]
    simp only [Bool.false_eq_true, if_false, ofOutcome, begin]
    split
    · next reminder description _ _ =>
      obtain ⟨id, v, added, good_v⟩ :=
        World.addReminder_ok reliable.calm description reminder living.good
      rw [added]
      exact entered (some id) v good_v
    · exact entered r.root.handle r.world living.good

/-- Blocks are put among those ahead of the root, behind the current one if there is one. -/
theorem Living.extend (staffed : r.root.Staffed) {ahead : List Block}
    (some_block : r.root.ahead ≠ [] → ahead ≠ [])
    (current : ∀ b rest, r.root.ahead = b :: rest → ∃ rest', ahead = b :: rest') :
    Execution.Staffed { r.root with ahead } where
  current running := some_block (staffed.current running)
  threads some_thread := by
    obtain ⟨settled, quiet⟩ := staffed.threads some_thread
    obtain ⟨running, ⟨b, rest, now, hosts⟩, others⟩ := (Execution.settled_iff _).mp settled
    obtain ⟨rest', rfl⟩ := current b rest now
    exact ⟨(Execution.settled_iff _).mpr ⟨running, ⟨b, rest', rfl, hosts⟩, others⟩, quiet⟩

theorem living_perform (reliable : services.Reliable Good) (r : Run σ) (call : Call)
    (living : r.Living Good) : (r.perform services call).Living Good := by
  have inOrder := inOrder_perform services r call living.inOrder
  cases call with
  | start =>
    obtain ⟨staffed, good⟩ := living_start reliable living
    exact ⟨good, inOrder, staffed⟩
  | dispatch path event =>
    obtain ⟨staffed, good⟩ :=
      Execution.dispatch_staffed reliable living.staffed event path living.good
    exact ⟨good, inOrder, staffed⟩
  | push block =>
    refine ⟨living.good, inOrder, Living.extend living.staffed ?_ ?_⟩
    · simp
    · intro b rest now
      exact ⟨_, Sequence.ahead_push now block.block⟩
  | splice blocks =>
    refine ⟨living.good, inOrder, ?_⟩
    rw [perform, splice, Sequence.splice_eq]
    have current (b : Block) (rest : List Block) (now : r.root.ahead = b :: rest) :
        ∃ rest', (r.root.toSequence.splice (blocks.map HostBlock.block)).ahead = b :: rest' :=
      ⟨_, Sequence.ahead_splice now _⟩
    refine Living.extend living.staffed ?_ current
    intro some_block
    obtain ⟨b, rest, now⟩ := List.exists_cons_of_ne_nil some_block
    obtain ⟨rest', spliced⟩ := current b rest now
    rw [spliced]
    exact List.cons_ne_nil b rest'
  | requestPause =>
    obtain ⟨token, w', requested, good⟩ := World.requestPause_ok reliable.calm living.good
    simp only [perform, requestPause, requested] at inOrder ⊢
    exact ⟨good, inOrder, living.staffed⟩
  | releasePause token =>
    obtain ⟨w', released, good⟩ := World.releasePause_ok reliable.calm token living.good
    simp only [perform, releasePause, released] at inOrder ⊢
    exact ⟨good, inOrder, living.staffed⟩

theorem Fresh.living_after (reliable : services.Reliable Good) {blocks : List HostBlock}
    (fresh : r.Fresh blocks) (good : Good r.world.host) (calls : List Call) :
    (r.after services calls).Living Good := by
  refine after_induction services (fun r call (_ : True) => living_perform reliable r call)
    ⟨good, fresh.inOrder, ?_⟩ calls fun _ _ => trivial
  obtain ⟨description, reminder, root⟩ := fresh.root
  rw [root]
  exact ⟨nofun, fun some_thread => absurd rfl some_thread⟩

end Run

end Stepwise
