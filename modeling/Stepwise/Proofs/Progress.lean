import Stepwise.Proofs.Calls
import Stepwise.Proofs.Delivery
import Stepwise.Proofs.Ending

/-!
# No run is stuck

A running execution always waits for an event that moves it on. Leaving every loop at its first
question, every event takes effort away, so that finitely many of them finish the run.
-/

namespace Stepwise

variable {σ : Type} {Good : σ → Prop} {services : Services σ}

theorem Block.effort_plan (b : Block) : b.plan.effort = b.effort := by
  obtain ⟨id, image, reminder, handle, hooks, text, activity⟩ := b
  cases activity <;> rfl

theorem blocksEffort_map_plan (blocks : List Block) :
    blocksEffort (blocks.map Block.plan) = blocksEffort blocks := by
  induction blocks with
  | nil => rfl
  | cons b rest ih => simp only [List.map_cons, blocksEffort, Block.effort_plan, ih]

namespace Block

/-- The block takes events itself: it is neither a counted loop nor a group. -/
def TakesAlone (b : Block) : Prop :=
  match b.activity with
  | .counted _ _ _ | .parallel _ => False
  | _ => True

theorem Hosts.takesAlone {b : Block} {threads : List Thread} (hosts : b.Hosts threads)
    (single : b.join? = none) : b.TakesAlone := by
  obtain ⟨id, image, reminder, handle, hooks, text, activity⟩ := b
  cases activity with
  | counted remaining entered body => exact False.elim hosts
  | parallel join => cases single
  | _ => trivial

theorem toil_of_single {b : Block} (single : b.join? = none) (n : Nat) : b.toil n = b.effort := by
  obtain ⟨id, image, reminder, handle, hooks, text, activity⟩ := b
  cases activity with
  | parallel join => cases single
  | _ => rfl

/-- What an answer puts after a condition. -/
def chosen (yes : Bool) (b : Block) : List Template :=
  match b.activity with
  | .condition onYes onNo => if yes then onYes else onNo
  | _ => []

/-- An event at which the block leaves: a condition with this answer, and a loop for good. -/
def leaving (yes : Bool) (b : Block) : Event :=
  match b.activity with
  | .condition _ _ => if yes then .yes else .no
  | .asked loop _ => if loop.continuesOn true then .no else .yes
  | .sleep _ => .elapsed
  | _ => .done

theorem effort_chosen_lt (yes : Bool) (b : Block) : effortAll (b.chosen yes) < b.effort := by
  obtain ⟨id, image, reminder, handle, hooks, text, activity⟩ := b
  cases activity with
  | condition onYes onNo =>
    cases yes with
    | true =>
      simp only [chosen, effort, if_true]
      omega
    | false =>
      simp only [chosen, effort, Bool.false_eq_true, if_false]
      omega
  | _ => exact effort_pos _

/-- The block leaves without a request to the host, and no countdown runs for it any more. -/
theorem react_leaving (services : Services σ) {b : Block} (takes : b.TakesAlone)
    (succeed : b.HooksSucceed) (yes : Bool) (w : World σ) : ∃ after b' v,
    b.react services (b.leaving yes) w = ⟨.ok (.leave after), b', v⟩ ∧ v.host = w.host ∧
      b'.HooksSucceed ∧ (b'.CountsIn fun _ => False) ∧ (∀ c ∈ after, c.HooksSucceed) ∧
      after.map plan = (b.chosen yes).map ofTemplate := by
  have none_after : ∀ c ∈ ([] : List Block), c.HooksSucceed := List.forall_mem_nil _
  cases activity : b.activity with
  | task =>
    refine ⟨[], b, w, ?_, rfl, succeed, ?_, none_after, ?_⟩
    · simp only [react, leaving, activity]
    · simp only [CountsIn, activity, reduceCtorEq, false_implies, implies_true]
    · simp only [chosen, activity, List.map_nil]
  | condition onYes onNo =>
    have chosen_eq : b.react services (b.leaving yes) w = b.choose (b.chosen yes) w := by
      cases yes <;> simp [react, leaving, chosen, activity]
    refine ⟨_, _, _, chosen_eq.trans (b.choose_eq (b.chosen yes) w), rfl, ?_, ?_, ?_, ?_⟩
    · intro hook mem
      rw [handOn_hooks] at mem
      exact succeed hook mem
    · intro s asleep
      rw [handOn_activity, activity] at asleep
      cases asleep
    · exact handOn_hooksSucceed (hooksSucceed_ofTemplates _)
    · rw [handOn_plan, List.map_map]
      exact List.map_congr_left fun t _ => plan_ofTemplate t
  | asked loop body =>
    refine ⟨[], b, w, ?_, rfl, succeed, ?_, none_after, ?_⟩
    · cases loop <;> simp [react, leaving, activity, answer, LoopKind.continuesOn]
    · simp only [CountsIn, activity, reduceCtorEq, false_implies, implies_true]
    · simp only [chosen, activity, List.map_nil]
  | sleep s =>
    refine ⟨[], { b with activity := .sleep { s with remaining := .zero } }, w, ?_, rfl, succeed, ?_,
      none_after, ?_⟩
    · simp only [react, leaving, activity]
    · rintro _ ⟨⟩ running
      have elapsed : Binary64.zero.isPositive = false := by decide
      exact absurd (elapsed.symm.trans running) Bool.false_ne_true
    · simp only [chosen, activity, List.map_nil]
  | counted remaining entered body => simp only [TakesAlone, activity] at takes
  | parallel join => simp only [TakesAlone, activity] at takes

/-- At one of the events that it takes, a block leaves less effort to be done than it needs
itself. -/
theorem leaves_lighter (services : Services σ) (Good : σ → Prop) {b : Block} (takes : b.TakesAlone)
    (succeed : b.HooksSucceed) : ∃ event, ∀ w : World σ, Good w.host → ∃ after b' v,
      b.react services event w = ⟨.ok (.leave after), b', v⟩ ∧ Good v.host ∧ b'.HooksSucceed ∧
        (∀ c ∈ after, c.HooksSucceed) ∧ blocksEffort after < b.effort := by
  refine ⟨b.leaving true, fun w good => ?_⟩
  obtain ⟨after, b', v, reacted, same, succeed', -, after_hooks, plan⟩ :=
    react_leaving services takes succeed true w
  refine ⟨after, b', v, reacted, by rwa [same], succeed', after_hooks, ?_⟩
  rw [← blocksEffort_map_plan, plan, blocksEffort_ofTemplates]
  exact b.effort_chosen_lt true

end Block

namespace Execution

variable {e : Execution} {b : Block} {rest : List Block}

/-- The effort after an event at which the current block leaves. -/
theorem toil_dispatch_leave (reliable : services.Reliable Good) (settled : e.Settled)
    (quiet : e.HooksSucceed) (now : e.ahead = b :: rest) {event : Event} {after : List Block}
    {b' : Block} {w v : World σ}
    (reacted : b.react services event w = ⟨.ok (.leave after), b', v⟩) (good_v : Good v.host)
    (succeed' : b'.HooksSucceed) (after_hooks : ∀ c ∈ after, c.HooksSucceed) :
    (e.dispatch services event [] w).part.toil ≤ blocksEffort after + blocksEffort rest := by
  obtain ⟨-, rest_hooks, threads_hooks⟩ := quiet.at_cons now
  obtain ⟨u, left, good_u⟩ := leave_ok reliable succeed' threads_hooks (after ++ rest) good_v
  have ahead_hooks : ∀ c ∈ after ++ rest, c.HooksSucceed := by
    intro c h
    rcases List.mem_append.mp h with h | h
    · exact after_hooks c h
    · exact rest_hooks c h
  obtain ⟨e', w', entered, -, -, -, bound⟩ :=
    enter_becomes reliable settled.isRunning b'.ended ahead_hooks good_u
  simp only [dispatch_here settled.isRunning now, reacted, Outcome.bind, left, entered]
  rw [blocksEffort_append] at bound
  exact bound

theorem toil_lt_of_leave (reliable : services.Reliable Good) (settled : e.Settled)
    (quiet : e.HooksSucceed) (now : e.ahead = b :: rest) {event : Event}
    (leaves : ∀ w : World σ, Good w.host → ∃ after b' v,
      b.react services event w = ⟨.ok (.leave after), b', v⟩ ∧ Good v.host ∧ b'.HooksSucceed ∧
        (∀ c ∈ after, c.HooksSucceed) ∧ blocksEffort after < b.toil (toilAll e.threads)) :
    ∀ w : World σ, Good w.host → (e.dispatch services event [] w).part.toil < e.toil := by
  intro w good
  obtain ⟨after, b', v, reacted, good_v, succeed', after_hooks, less⟩ := leaves w good
  have bound :=
    toil_dispatch_leave reliable settled quiet now reacted good_v succeed' after_hooks
  rw [toil_cons now]
  omega

/-- A thread that an event takes effort from takes it from its group's execution. -/
theorem toil_lt_of_thread (reliable : services.Reliable Good) (settled : e.Settled)
    (quiet : e.HooksSucceed) (now : e.ahead = b :: rest) {join : Join}
    (activity : b.activity = .parallel join) {t : Thread} {others : List Thread}
    (threads : e.threads = t :: others) {event : Event} {path : List Nat}
    (less : ∀ w : World σ, Good w.host →
      (t.execution.dispatch services event path w).part.toil < t.execution.toil) :
    ∀ w : World σ, Good w.host →
      (e.dispatch services event (t.branch :: path) w).part.toil < e.toil := by
  intro w good
  obtain ⟨running, ⟨c, cs, now', hosts⟩, all_settled⟩ := (settled_iff e).mp settled
  obtain ⟨rfl, rfl⟩ := List.cons.inj (now.symm.trans now')
  obtain ⟨succeed, rest_hooks, threads_hooks⟩ := quiet.at_cons now
  have group : b.join? = some join := by simp only [Block.join?, activity]
  have is_open := (join_open hosts group).2
  have found : findThread t.branch e.threads = some ([], t, others) := by
    simp only [threads, findThread, if_true]
  rw [threads] at is_open
  rw [threads, hooksSucceed_cons] at threads_hooks
  have first_open : join.Open ([] ++ t :: others) := is_open
  have others_hooks : hooksSucceed ([] ++ others) := threads_hooks.2
  have t_settled : t.execution.Settled := all_settled t (by simp [threads])
  obtain ⟨x, v, delivered, good_v, moved⟩ :=
    dispatch_becomes reliable t_settled threads_hooks.1 event path good
  have x_less := less w good
  have t_pos := t_settled.toil_pos
  have total : e.toil = 1 + (t.execution.toil + toilAll others) + blocksEffort rest := by
    rw [toil_cons now, threads]
    simp only [Block.toil, activity, toilAll_cons]
  simp only [delivered] at x_less
  simp only [dispatch_thread running now group found, delivered, Outcome.bind]
  rcases moved.rests with spent | settled_x
  · by_cases enough : join.completed + 1 = join.target
    · obtain ⟨u, ended, good_u⟩ := afterThread_ends (e := e) reliable rest spent.finished first_open
        enough succeed others_hooks good_v
      obtain ⟨e', w', entered, -, -, -, bound⟩ :=
        enter_becomes reliable running (endedGroup b join) rest_hooks good_u
      rw [ended, entered]
      show e'.toil < e.toil
      omega
    · rw [afterThread_stays spent.finished first_open enough]
      simp only [toil, Block.toil, List.nil_append]
      omega
  · rw [afterThread_runs settled_x.unfinished]
    rw [toil_cons (e := { e with threads := _ }) now]
    simp only [Block.toil, activity, List.nil_append, toilAll_cons]
    omega

theorem Settled.progress (reliable : services.Reliable Good) (settled : e.Settled)
    (quiet : e.HooksSucceed) : ∃ path event, ∀ w : World σ, Good w.host →
      (e.dispatch services event path w).part.toil < e.toil := by
  induction measure : e.toil using Nat.strongRecOn generalizing e with
  | ind n ih =>
  subst measure
  obtain ⟨running, ⟨b, rest, now, hosts⟩, all_settled⟩ := (settled_iff e).mp settled
  obtain ⟨succeed, -, threads_hooks⟩ := quiet.at_cons now
  cases group : b.join? with
  | none =>
    obtain ⟨event, leaves⟩ := Block.leaves_lighter services Good (hosts.takesAlone group) succeed
    refine ⟨[], event, toil_lt_of_leave reliable settled quiet now fun w good => ?_⟩
    obtain ⟨after, b', v, reacted, good_v, succeed', after_hooks, less⟩ := leaves w good
    refine ⟨after, b', v, reacted, good_v, succeed', after_hooks, ?_⟩
    rw [Block.toil_of_single group]
    exact less
  | some join =>
    obtain ⟨activity, is_open⟩ := join_open hosts group
    cases threads : e.threads with
    | nil => exact absurd threads is_open.ne_nil
    | cons t others =>
      rw [threads, hooksSucceed_cons] at threads_hooks
      have smaller : t.execution.toil < e.toil := by
        rw [toil_cons now, threads]
        simp only [Block.toil, activity, toilAll_cons]
        omega
      obtain ⟨path, event, less⟩ :=
        ih _ smaller (all_settled t (by simp [threads])) threads_hooks.1 rfl
      exact ⟨t.branch :: path, event,
        toil_lt_of_thread reliable settled quiet now activity threads less⟩

end Execution

/-- The block takes an event itself, or has threads of which one runs. -/
def Block.Takes (b : Block) (threads : List Thread) : Prop :=
  match b.activity with
  | .task | .condition _ _ | .asked _ _ => True
  | .sleep s => 0 < s.value
  | .parallel join => join.done = false ∧ ∃ t ∈ threads, t.execution.isRunning = true
  | .counted _ _ _ => False

mutual

/-- The execution runs, and so do all threads in it; each has a current block that takes an
event. -/
def Execution.Awaits : Execution → Prop
  | ⟨line, threads⟩ =>
    line.isRunning = true ∧ (∃ b, line.current? = some b ∧ b.Takes threads) ∧ allAwait threads

def allAwait : List Thread → Prop
  | [] => True
  | ⟨_, execution⟩ :: rest => execution.Awaits ∧ allAwait rest

end

theorem Block.Hosts.takes {b : Block} {threads : List Thread} (hosts : b.Hosts threads)
    (running : ∀ t ∈ threads, t.execution.isRunning = true) : b.Takes threads := by
  unfold Hosts at hosts
  unfold Takes
  split
  · trivial
  · trivial
  · trivial
  · next s activity =>
    simp only [activity] at hosts
    exact hosts.1
  · next join activity =>
    simp only [activity] at hosts
    refine ⟨hosts.undone, ?_⟩
    obtain ⟨t, mem⟩ := List.exists_mem_of_ne_nil threads hosts.ne_nil
    exact ⟨t, mem, running t mem⟩
  · next activity =>
    simp only [activity] at hosts

mutual

theorem Execution.Settled.awaits : ∀ {e : Execution}, e.Settled → e.Awaits
  | ⟨line, threads⟩, settled => by
    obtain ⟨running, ⟨b, rest, now, hosts⟩, others⟩ := settled
    have threads_run : ∀ t ∈ threads, t.execution.isRunning = true := fun t mem =>
      ((settledAll_forall threads).mp others t mem).isRunning
    refine ⟨running, ⟨b, ?_, hosts.takes threads_run⟩, allAwait_of_settled others⟩
    simp only [Sequence.current?, now, List.head?_cons]

theorem allAwait_of_settled : ∀ {threads : List Thread}, settledAll threads → allAwait threads
  | [], _ => trivial
  | ⟨_, _⟩ :: _, settled => ⟨settled.1.awaits, allAwait_of_settled settled.2⟩

end

namespace Run

/-- What every call keeps: the host stays reliable, no callback is going to fail, and the root is
still to be started, waits for an event or has run out. -/
structure Sound (Good : σ → Prop) (r : Run σ) : Prop where
  good : Good r.world.host
  hooks : r.root.HooksSucceed
  state :
    (r.root.started = false ∧ r.root.finished = false ∧ r.root.cancelled = false ∧
      r.root.threads = []) ∨
    r.root.Settled ∨
    (r.root.started = true ∧ r.root.finished = true ∧ r.root.threads = [])

theorem Sound.settled {r : Run σ} (sound : r.Sound Good) (running : r.root.isRunning = true) :
    r.root.Settled := by
  simp only [Sequence.isRunning, Bool.and_eq_true, Bool.not_eq_true'] at running
  rcases sound.state with ⟨unstarted, -⟩ | settled | ⟨-, finished, -⟩
  · rw [unstarted] at running
    exact absurd running.1.1 Bool.false_ne_true
  · exact settled
  · rw [finished] at running
    exact absurd running.1.2.symm Bool.false_ne_true

theorem sound_of_becomes {e e' : Execution} {w : World σ} (good : Good w.host)
    (moved : e.Becomes e') (started : e.started = true) : Sound Good ⟨e', w⟩ where
  good := good
  hooks := moved.hooks
  state := by
    rcases moved.rests with spent | settled
    · exact Or.inr (Or.inr ⟨moved.started.trans started, spent.finished, spent.threads⟩)
    · exact Or.inr (Or.inl settled)

/-- Entering the first block of a root that has just been started. -/
theorem sound_enter (reliable : services.Reliable Good) {e : Execution}
    (started : e.started = true) (unfinished : e.finished = false)
    (uncancelled : e.cancelled = false) (hooks : e.HooksSucceed) {w : World σ}
    (good : Good w.host) : Sound Good (ofOutcome (e.enter services w)).2 := by
  have running : e.isRunning = true := by
    simp [Sequence.isRunning, started, unfinished, uncancelled]
  obtain ⟨e', w', entered, good', at_e'⟩ :=
    Execution.enter_lands reliable running ((Execution.hooksSucceed_iff e).mp hooks).1 w good
  rw [entered]
  exact sound_of_becomes good' at_e'.becomes started

theorem sound_start (reliable : services.Reliable Good) {r : Run σ} (sound : r.Sound Good) :
    (r.start services).2.Sound Good := by
  unfold start
  split
  · exact sound
  · next unstarted =>
    have fresh : r.root.finished = false ∧ r.root.cancelled = false := by
      rcases sound.state with h | settled | h
      · exact ⟨h.2.1, h.2.2.1⟩
      · have running := settled.isRunning
        simp only [Sequence.isRunning, Bool.and_eq_true] at running
        exact absurd running.1.1 unstarted
      · exact absurd h.1 unstarted
    have hooks : ∀ handle, Execution.HooksSucceed
        { r.root with started := true, handle := handle } := by
      intro handle
      have parts := (Execution.hooksSucceed_iff r.root).mp sound.hooks
      exact (Execution.hooksSucceed_iff { r.root with started := true, handle := handle }).mpr parts
    unfold begin
    simp only
    split
    · next reminder description _ _ =>
      obtain ⟨id, w', added, good'⟩ :=
        World.addReminder_ok reliable.calm description reminder sound.good
      simp only [added]
      exact sound_enter (e := { r.root with started := true, handle := some id }) reliable rfl
        fresh.1 fresh.2 (hooks (some id)) good'
    · exact sound_enter (e := { r.root with started := true }) reliable rfl fresh.1 fresh.2
        (hooks r.root.handle) sound.good

theorem dispatch_of_idle {r : Run σ} (idle : r.root.isRunning = false) (path : List Nat)
    (event : Event) : (r.dispatch services path event).2 =
      ⟨r.root, r.world.passOver (.notRunning event)⟩ := by
  simp only [dispatch, Execution.dispatch_idle idle, ofOutcome]

theorem sound_dispatch (reliable : services.Reliable Good) {r : Run σ} (sound : r.Sound Good)
    (path : List Nat) (event : Event) : (r.dispatch services path event).2.Sound Good := by
  cases running : r.root.isRunning with
  | false =>
    rw [dispatch_of_idle running]
    exact ⟨sound.good, sound.hooks, sound.state⟩
  | true =>
    have settled := sound.settled running
    obtain ⟨e', w', delivered, good', moved⟩ :=
      Execution.dispatch_becomes reliable settled sound.hooks event path sound.good
    simp only [dispatch, delivered, ofOutcome]
    refine sound_of_becomes good' moved ?_
    simp only [Sequence.isRunning, Bool.and_eq_true] at running
    exact running.1.1

/-- Blocks that a host adds leave the current block and its threads as they are. -/
theorem sound_ahead {r : Run σ} (sound : r.Sound Good) {ahead : List Block}
    (hooks : ∀ b ∈ ahead, b.HooksSucceed)
    (current : ∀ b rest, r.root.ahead = b :: rest → ∃ rest', ahead = b :: rest') :
    Sound Good { r with root := { r.root with ahead } } where
  good := sound.good
  hooks := (Execution.hooksSucceed_iff _).mpr
    ⟨hooks, ((Execution.hooksSucceed_iff _).mp sound.hooks).2⟩
  state := by
    rcases sound.state with h | settled | h
    · exact Or.inl h
    · obtain ⟨running, ⟨b, rest, now, hosts⟩, others⟩ := (Execution.settled_iff _).mp settled
      obtain ⟨rest', ahead_eq⟩ := current b rest now
      refine Or.inr (Or.inl ((Execution.settled_iff _).mpr ?_))
      exact ⟨running, ⟨b, rest', ahead_eq, hosts⟩, others⟩
    · exact Or.inr (Or.inr h)

theorem sound_push {r : Run σ} (sound : r.Sound Good) {b : Block} (hooks : b.HooksSucceed) :
    (r.push b).Sound Good := by
  have old := ((Execution.hooksSucceed_iff _).mp sound.hooks).1
  refine sound_ahead sound ?_ fun c rest now => ⟨_, Sequence.ahead_push now b⟩
  intro c h
  rcases List.mem_append.mp h with h | h
  · exact old c h
  · rw [List.mem_singleton.mp h]
    exact hooks

theorem sound_splice {r : Run σ} (sound : r.Sound Good) {blocks : List Block}
    (hooks : ∀ b ∈ blocks, b.HooksSucceed) : (r.splice blocks).Sound Good := by
  have old := ((Execution.hooksSucceed_iff _).mp sound.hooks).1
  rw [splice, Sequence.splice_eq]
  refine sound_ahead sound ?_ fun c rest now => ⟨_, Sequence.ahead_splice now blocks⟩
  intro c mem
  rcases Sequence.mem_splice mem with mem | mem
  · exact hooks c mem
  · exact old c mem

theorem sound_perform (reliable : services.Reliable Good) (r : Run σ) (call : Call)
    (succeeds : call.Succeeds) (sound : r.Sound Good) : (r.perform services call).Sound Good := by
  cases call with
  | start => exact sound_start reliable sound
  | dispatch path event => exact sound_dispatch reliable sound path event
  | push block => exact sound_push sound (HostBlock.hooksSucceed_block succeeds)
  | splice blocks =>
    refine sound_splice sound fun b h => ?_
    obtain ⟨c, mem, rfl⟩ := List.mem_map.mp h
    exact HostBlock.hooksSucceed_block (succeeds c mem)
  | requestPause =>
    obtain ⟨token, w', requested, good'⟩ := World.requestPause_ok reliable.calm sound.good
    simp only [perform, requestPause, requested]
    exact ⟨good', sound.hooks, sound.state⟩
  | releasePause token =>
    obtain ⟨w', released, good'⟩ := World.releasePause_ok reliable.calm token sound.good
    simp only [perform, releasePause, released]
    exact ⟨good', sound.hooks, sound.state⟩

theorem Fresh.sound {blocks : List HostBlock} {r : Run σ} (fresh : r.Fresh blocks)
    (succeed : ∀ b ∈ blocks, b.Succeeds) (good : Good r.world.host) : r.Sound Good := by
  obtain ⟨description, reminder, root⟩ := fresh.root
  refine ⟨good, ?_, ?_⟩
  · rw [root]
    refine ⟨fun b h => ?_, trivial⟩
    obtain ⟨c, mem, rfl⟩ := List.mem_map.mp h
    exact HostBlock.hooksSucceed_block (succeed c mem)
  · rw [root]
    exact Or.inl ⟨rfl, rfl, rfl, rfl⟩

/-- The invariant in every state that calls can lead to. -/
theorem Fresh.sound_after (reliable : services.Reliable Good) {blocks : List HostBlock}
    {r : Run σ} (fresh : r.Fresh blocks) (succeed : ∀ b ∈ blocks, b.Succeeds)
    (good : Good r.world.host) (calls : List Call) (all : ∀ call ∈ calls, call.Succeeds) :
    (r.after services calls).Sound Good :=
  after_induction services (sound_perform reliable) (fresh.sound succeed good) calls all

theorem Sound.unstarted {r : Run σ} (sound : r.Sound Good) (unstarted : r.root.started = false) :
    r.root.finished = false ∧ r.root.cancelled = false ∧ r.root.threads = [] := by
  rcases sound.state with h | settled | h
  · exact h.2
  · have running := settled.isRunning
    simp only [Sequence.isRunning, unstarted, Bool.false_and, Bool.false_eq_true] at running
  · exact absurd (h.1.symm.trans unstarted) Bool.true_eq_false.mp

/-- A start is answered. -/
theorem Sound.begin_answered (reliable : services.Reliable Good) {r : Run σ} (sound : r.Sound Good)
    (unstarted : r.root.started = false) :
    ∃ e w, begin services r.root r.world = ⟨.ok (), e, w⟩ := by
  obtain ⟨unfinished, uncancelled, -⟩ := sound.unstarted unstarted
  have enters : ∀ (handle : Option Nat) (w : World σ), Good w.host → ∃ e' w',
      Execution.enter services { r.root with started := true, handle := handle } w =
        ⟨.ok (), e', w'⟩ := by
    intro handle w good
    have running : ({ r.root with started := true, handle := handle } : Execution).isRunning =
        true := by
      simp [Sequence.isRunning, unfinished, uncancelled]
    obtain ⟨e', w', entered, -⟩ := Execution.enter_lands reliable running
      ((Execution.hooksSucceed_iff r.root).mp sound.hooks).1 w good
    exact ⟨e', w', entered⟩
  unfold begin
  simp only
  split
  · next reminder description _ _ =>
    obtain ⟨id, w', added, good'⟩ := World.addReminder_ok reliable.calm description reminder sound.good
    simp only [added]
    exact enters (some id) w' good'
  · exact enters r.root.handle r.world sound.good

/-- So it leaves what every answer to it leaves. -/
theorem Sound.start_yields (reliable : services.Reliable Good) {r : Run σ} (sound : r.Sound Good)
    (unstarted : r.root.started = false) {P : Execution → World σ → Prop}
    (yields : (begin services r.root r.world).Yields fun _ e w => P e w) :
    P (r.start services).2.root (r.start services).2.world := by
  obtain ⟨e, w, answered⟩ := sound.begin_answered reliable unstarted
  rw [answered] at yields
  simp only [start, unstarted, Bool.false_eq_true, if_false, answered, ofOutcome]
  exact yields

/-- An event is answered. -/
theorem Sound.dispatch_answered (reliable : services.Reliable Good) {r : Run σ}
    (sound : r.Sound Good) (path : List Nat) (event : Event) :
    ∃ e w, r.root.dispatch services event path r.world = ⟨.ok (), e, w⟩ := by
  cases running : r.root.isRunning with
  | false => exact ⟨_, _, Execution.dispatch_idle running event path r.world⟩
  | true =>
    obtain ⟨e', w', delivered, -⟩ := Execution.dispatch_becomes reliable (sound.settled running)
      sound.hooks event path sound.good
    exact ⟨e', w', delivered⟩

/-- So it leaves what every answer to it leaves. -/
theorem Sound.dispatch_yields (reliable : services.Reliable Good) {r : Run σ} (sound : r.Sound Good)
    (path : List Nat) (event : Event) {P : Execution → World σ → Prop}
    (yields : (r.root.dispatch services event path r.world).Yields fun _ e w => P e w) :
    P (r.dispatch services path event).2.root (r.dispatch services path event).2.world := by
  obtain ⟨e, w, answered⟩ := sound.dispatch_answered reliable path event
  rw [answered] at yields
  simp only [dispatch, answered, ofOutcome]
  exact yields

/-- The run after events that are delivered one after the other. -/
def deliver (services : Services σ) (r : Run σ) (moves : List (List Nat × Event)) : Run σ :=
  r.after services (moves.map fun move => .dispatch move.1 move.2)

/-- Events that each take effort away finish the run. -/
theorem Sound.finishes (reliable : services.Reliable Good) {r : Run σ} (sound : r.Sound Good)
    (settled : r.root.Settled) : ∃ moves, (r.deliver services moves).root.finished = true := by
  induction measure : r.root.toil using Nat.strongRecOn generalizing r with
  | ind n ih =>
  subst measure
  obtain ⟨path, event, less⟩ := settled.progress reliable sound.hooks
  obtain ⟨e', w', delivered, good', moved⟩ :=
    Execution.dispatch_becomes reliable settled sound.hooks event path sound.good
  have smaller := less r.world sound.good
  have next : r.perform services (.dispatch path event) = ⟨e', w'⟩ := by
    simp only [perform, dispatch, delivered, ofOutcome]
  rw [delivered] at smaller
  rcases moved.rests with spent | settled'
  · refine ⟨[(path, event)], ?_⟩
    show (r.perform services (.dispatch path event)).root.finished = true
    rw [next]
    exact spent.finished
  · have sound' : (r.perform services (.dispatch path event)).Sound Good :=
      sound_dispatch reliable sound path event
    rw [next] at sound'
    obtain ⟨moves, finished⟩ := ih e'.toil smaller sound' settled' rfl
    refine ⟨(path, event) :: moves, ?_⟩
    show ((r.perform services (.dispatch path event)).deliver services moves).root.finished = true
    rw [next]
    exact finished

/-- In every state that calls can lead to, a root that runs waits for events, all through its
threads, and some list of events finishes it. -/
theorem never_stuck (reliable : services.Reliable Good) {blocks : List HostBlock} {r : Run σ}
    (fresh : r.Fresh blocks) (good : Good r.world.host) (succeed : ∀ b ∈ blocks, b.Succeeds)
    (calls : List Call) (all : ∀ call ∈ calls, call.Succeeds)
    (running : (r.after services calls).root.isRunning = true) :
    (r.after services calls).root.Awaits ∧
      ∃ moves, ((r.after services calls).deliver services moves).root.finished = true := by
  have sound := fresh.sound_after reliable succeed good calls all
  have settled := sound.settled running
  exact ⟨settled.awaits, sound.finishes reliable settled⟩

/-- A group that ends with its first thread, in a loop that is asked for again. -/
def groupInLoop : Run InMemory :=
  .ofWorkflow ⟨"rounds", none, none, [.asked "again?" .whileYes [.parallel "first of two" 1
    [[.counted 2 [.task "stir"]], [.sleep 5 .minutes "rest" true]]]]⟩ .empty

theorem never_stuck_groupInLoop :
    (groupInLoop.after InMemory.services [.start, .dispatch [] .yes]).root.Awaits ∧
      ∃ moves, ((groupInLoop.after InMemory.services [.start, .dispatch [] .yes]).deliver
        InMemory.services moves).root.finished = true := by
  refine never_stuck InMemory.reliable (fresh_ofWorkflow _ _) InMemory.willing_empty ?_ _ ?_ ?_
  · intro b mem
    obtain ⟨t, -, rfl⟩ := List.mem_map.mp mem
    exact HostBlock.succeeds_plain t
  · intro call mem
    simp only [List.mem_cons, List.not_mem_nil, or_false] at mem
    rcases mem with rfl | rfl <;> trivial
  · decide +kernel

end Run

end Stepwise
