import Stepwise.Proofs.Custody.Runs
import Stepwise.Proofs.Journal
import Stepwise.Proofs.Releasing

/-!
# When threads are cancelled

A call of a run goes through many operations, each begun by another one, and threads are cancelled
in the midst of them: where the thread that a group was waiting for has finished, be it that the
group is being entered or that an event has gone to one of its threads. Whenever that happens the
cancelled thread is as it should be, whatever the host has refused before, and so it gives back its
share.
-/

namespace Stepwise

variable {σ : Type}

/-- An operation of a run, with the part that it works on. -/
inductive Action where
  | enter (e : Execution)
  | startThreads (pending started : List Thread) (join : Join)
  | complete (join : Join) (others : List Thread)
  | leave (b : Block) (ahead : List Block) (e : Execution)
  | dispatch (event : Event) (path : List Nat) (e : Execution)

/-- An event for this path goes to the thread `t` of the current group. -/
structure Execution.Passes (e : Execution) (branch : Nat) (b : Block) (rest : List Block)
    (join : Join) (before : List Thread) (t : Thread) (after : List Thread) : Prop where
  running : e.isRunning = true
  now : e.ahead = b :: rest
  group : b.join? = some join
  found : findThread branch e.threads = some (before, t, after)

/-- The threads are those of branches of a group, and none of them has been started. -/
def Pending (threads : List Thread) : Prop :=
  ∃ address first branches, threads = threadsFrom address first branches

namespace Action

/-- The first operation, begun in the first world, begins the second one in the second world. -/
inductive Begins (services : Services σ) : Action → World σ → Action → World σ → Prop
  | group {e : Execution} {b : Block} {rest : List Block} {handle : Option Nat} {join : Join}
      {w v : World σ} (now : e.ahead = b :: rest)
      (registered : b.register services w = (.ok handle, v)) (activity : b.activity = .parallel join)
      (some_branch : join.branches ≠ []) :
      Begins services (.enter e) w (.startThreads (join.threads e.address) [] join.opened)
        (v.noteOpened join.branches)
  | next {e : Execution} {b arrived left : Block} {rest : List Block} {handle : Option Nat}
      {threads : List Thread} {w v u x : World σ} (now : e.ahead = b :: rest)
      (registered : b.register services w = (.ok handle, v))
      (arrives : Block.arrive services e.address { b with handle } v =
        ⟨.ok true, (arrived, threads), u⟩)
      (leaves : arrived.leave services (e.noteEntered arrived u) = ⟨.ok (), left, x⟩) :
      Begins services (.enter e) w
        (.enter ⟨e.advance left (({ b with handle } : Block).pass ++ rest), []⟩) (e.noteLeft left x)
  | start {branch : Nat} {e : Execution} {rest started : List Thread} {join : Join} {w : World σ} :
      Begins services (.startThreads (⟨branch, e⟩ :: rest) started join) w
        (.enter { e with started := true }) w
  | finishes {branch : Nat} {e e' : Execution} {rest started : List Thread} {join : Join}
      {w v : World σ}
      (entered : Execution.enter services { e with started := true } w = ⟨.ok (), e', v⟩)
      (finished : e'.finished = true) :
      Begins services (.startThreads (⟨branch, e⟩ :: rest) started join) w
        (.complete join (started ++ rest)) v
  | others {branch : Nat} {e e' : Execution} {rest started left : List Thread} {join join' : Join}
      {w v u : World σ}
      (entered : Execution.enter services { e with started := true } w = ⟨.ok (), e', v⟩)
      (finished : e'.finished = true)
      (counted : join.complete services (started ++ rest) v = ⟨.ok false, (join', left), u⟩) :
      Begins services (.startThreads (⟨branch, e⟩ :: rest) started join) w
        (.startThreads rest started join') u
  | waits {branch : Nat} {e e' : Execution} {rest started : List Thread} {join : Join}
      {w v : World σ}
      (entered : Execution.enter services { e with started := true } w = ⟨.ok (), e', v⟩)
      (unfinished : e'.finished = false) :
      Begins services (.startThreads (⟨branch, e⟩ :: rest) started join) w
        (.startThreads rest (started ++ [⟨branch, e'⟩]) join) v
  | reacts {event : Event} {e : Execution} {b b' : Block} {rest after : List Block}
      {w v : World σ} (running : e.isRunning = true) (now : e.ahead = b :: rest)
      (reacted : b.react services event w = ⟨.ok (.leave after), b', v⟩) :
      Begins services (.dispatch event [] e) w (.leave b' (after ++ rest) e) v
  | passes {event : Event} {branch : Nat} {path : List Nat} {e : Execution} {b : Block}
      {rest : List Block} {join : Join} {before after : List Thread} {t : Thread} {w : World σ}
      (passes : e.Passes branch b rest join before t after) :
      Begins services (.dispatch event (branch :: path) e) w (.dispatch event path t.execution) w
  | counts {event : Event} {branch : Nat} {path : List Nat} {e x : Execution} {b : Block}
      {rest : List Block} {join : Join} {before after : List Thread} {t : Thread} {w v : World σ}
      (passes : e.Passes branch b rest join before t after)
      (delivered : t.execution.dispatch services event path w = ⟨.ok (), x, v⟩)
      (finished : x.finished = true) :
      Begins services (.dispatch event (branch :: path) e) w (.complete join (before ++ after)) v
  | ends {event : Event} {branch : Nat} {path : List Nat} {e x : Execution} {b : Block}
      {rest : List Block} {join join' : Join} {before after left : List Thread} {t : Thread}
      {w v u : World σ} (passes : e.Passes branch b rest join before t after)
      (delivered : t.execution.dispatch services event path w = ⟨.ok (), x, v⟩)
      (finished : x.finished = true)
      (counted : join.complete services (before ++ after) v = ⟨.ok true, (join', left), u⟩) :
      Begins services (.dispatch event (branch :: path) e) w
        (.leave { b with activity := .parallel join' } rest
          ⟨{ e.toSequence with ahead := { b with activity := .parallel join' } :: rest }, left⟩) u
  | onward {b left : Block} {ahead : List Block} {e : Execution} {w v u : World σ}
      (cancelled : cancelThreads services e.threads w = ⟨.ok (), (), v⟩)
      (leaves : b.leave services v = ⟨.ok (), left, u⟩) :
      Begins services (.leave b ahead e) w (.enter ⟨e.advance left ahead, []⟩) (e.noteLeft left u)

/-- The operation cancels the thread, in the second world: itself, because enough threads have
finished or because the block that they belong to leaves, or through an operation that it begins, or
because it cancels the thread around it. -/
inductive Cancels (services : Services σ) : Action → World σ → Thread → World σ → Prop
  | joined {join : Join} {first rest : List Thread} {t : Thread} {w v : World σ}
      (enough : join.completed + 1 = join.choose)
      (earlier : cancelThreads services first w = ⟨.ok (), (), v⟩) :
      Cancels services (.complete join (first ++ t :: rest)) w t v
  | left {b : Block} {ahead : List Block} {e : Execution} {first rest : List Thread} {t : Thread}
      {w v : World σ} (threads : e.threads = first ++ t :: rest)
      (earlier : cancelThreads services first w = ⟨.ok (), (), v⟩) :
      Cancels services (.leave b ahead e) w t v
  | begun {a a' : Action} {t : Thread} {w w' v : World σ} (begins : Begins services a w a' w')
      (cancels : Cancels services a' w' t v) : Cancels services a w t v
  | inside {a : Action} {first rest : List Thread} {t t' : Thread} {w v u : World σ}
      (cancels : Cancels services a w t v) (running : t.execution.isRunning = true)
      (threads : t.execution.threads = first ++ t' :: rest)
      (earlier : cancelThreads services first v = ⟨.ok (), (), u⟩) : Cancels services a w t' u

/-- The threads that the operation is given are as they should be. An execution that is entered is
given none. -/
def Ready : Action → Prop
  | .enter _ => True
  | .startThreads pending started _ => Pending pending ∧ OrderlyThreads started
  | .complete _ others => OrderlyThreads others
  | .leave _ _ e | .dispatch _ _ e => OrderlyThreads e.threads

end Action

/-- What is due in a world can always be held somewhere else. -/
theorem World.covered (w : World σ) (holdings : List Holding) :
    ∃ others, w.Covers (holdings ++ others) := by
  refine ⟨(activeIn w.journal).map .reminder ++ w.pause.outstanding.map .token, Or.inr fun h => ?_⟩
  rw [List.count_append, List.count_append]
  cases h with
  | reminder id =>
    have each := List.count_map_of_injective (activeIn w.journal) Holding.reminder
      (fun _ _ same => Holding.reminder.inj same) id
    simp only [due]
    omega
  | token token =>
    have each := List.count_map_of_injective w.pause.outstanding Holding.token
      (fun _ _ same => Holding.token.inj same) token
    simp only [due]
    omega

theorem orderly_startedThread (services : Services σ) (address : List Nat)
    (templates : List Template) (w : World σ) :
    let entered := (startedThread address templates).enter services w
    entered.part.Plain ∧ entered.part.Orderly := by
  obtain ⟨others, covers⟩ := w.covered []
  have none : blocksHeld (templates.map Block.ofTemplate) = [] := blocksHeld_ofTemplates templates
  have kept : ((startedThread address templates).enter services w).Keeps True others :=
    Execution.enter_keeps _ w others True rfl rfl rfl (Block.tokens_ofTemplates templates)
      (fun _ => ⟨rfl, Block.hooksSucceed_ofTemplates templates⟩)
      (by simpa [startedThread, Execution.fresh, Sequence.fresh, none] using covers)
  exact ⟨kept.left.plain trivial, kept.left.orderly⟩

namespace Pending

variable {branch : Nat} {e : Execution} {pending rest : List Thread}

theorem next (fresh : Pending (⟨branch, e⟩ :: rest)) :
    ∃ address templates, { e with started := true } = startedThread address templates := by
  obtain ⟨address, first, branches, threads⟩ := fresh
  cases branches with
  | nil => cases threads
  | cons templates others =>
    rw [threadsFrom] at threads
    cases threads
    exact ⟨address ++ [branch], templates, rfl⟩

theorem later (fresh : Pending (⟨branch, e⟩ :: rest)) : Pending rest := by
  obtain ⟨address, first, branches, threads⟩ := fresh
  cases branches with
  | nil => cases threads
  | cons templates others =>
    rw [threadsFrom] at threads
    cases threads
    exact ⟨address, branch + 1, others, rfl⟩

theorem orderly (fresh : Pending pending) : OrderlyThreads pending := by
  obtain ⟨address, first, branches, rfl⟩ := fresh
  exact orderlyThreads_threadsFrom address first branches

theorem onward (fresh : Pending pending) {services : Services σ} {given : Notice → Prop}
    (started : List Thread) (join : Join) (w : World σ) :
    Onward given w.journal (startThreads services pending started join w).world.journal := by
  obtain ⟨address, first, branches, rfl⟩ := fresh
  exact startThreads_onward (fun _ _ _ => Execution.enter_onward _) address first started join w

end Pending

theorem OrderlyThreads.among {first rest : List Thread} {t : Thread}
    (orderly : OrderlyThreads (first ++ t :: rest)) : t.execution.Orderly ∧ t.execution.Plain :=
  have mem := List.mem_append_right first List.mem_cons_self
  ⟨orderly.inside t mem, orderly.plain t mem⟩

theorem OrderlyThreads.left {join join' : Join} {others left : List Thread} {ended : Bool}
    {services : Services σ} {w v : World σ} (orderly : OrderlyThreads others)
    (counted : join.complete services others w = ⟨.ok ended, (join', left), v⟩) :
    OrderlyThreads left := by
  have sub := (join.complete_keeps services others w).2
  rw [counted] at sub
  exact orderly.sublist sub

/-- The threads around one that an event goes to, and the threads in it. -/
theorem Execution.Passes.orderly {e : Execution} {branch : Nat} {b : Block} {rest : List Block}
    {join : Join} {before after : List Thread} {t : Thread}
    (passes : e.Passes branch b rest join before t after) (orderly : OrderlyThreads e.threads) :
    OrderlyThreads (before ++ after) ∧ OrderlyThreads t.execution.threads := by
  rw [(findThread_some passes.found).1] at orderly
  exact ⟨orderly.sublist ((List.sublist_cons_self t after).append_left before),
    (Execution.orderly_iff.mp orderly.among.1).2.2⟩

namespace Action

variable {services : Services σ} {a a' : Action} {t : Thread} {w w' v : World σ}

theorem Begins.ready (begins : Begins services a w a' w') (ready : a.Ready) : a'.Ready := by
  cases begins with
  | group now registered activity some_branch => exact ⟨⟨_, _, _, rfl⟩, .nil⟩
  | next | start | onward => trivial
  | finishes entered finished => exact ready.2.append ready.1.later.orderly
  | others entered finished counted => exact ⟨ready.1.later, ready.2⟩
  | waits entered unfinished =>
    obtain ⟨address, templates, fresh⟩ := ready.1.next
    have kept := orderly_startedThread services address templates w
    rw [← fresh, entered] at kept
    exact ⟨ready.1.later, ready.2.append (.cons kept.1 kept.2 .nil)⟩
  | reacts running now reacted => exact ready
  | passes passes => exact (passes.orderly ready).2
  | counts passes delivered finished => exact (passes.orderly ready).1
  | ends passes delivered finished counted => exact (passes.orderly ready).1.left counted

/-- A thread is as it should be when it is cancelled. -/
theorem Cancels.thread (cancels : Cancels services a w t v) (ready : a.Ready) :
    t.execution.Orderly ∧ t.execution.Plain := by
  induction cancels with
  | joined enough earlier => exact OrderlyThreads.among ready
  | left threads earlier =>
    rw [Ready, threads] at ready
    exact ready.among
  | begun begins cancels ih => exact ih (begins.ready ready)
  | inside cancels running threads earlier ih =>
    have inside := (Execution.orderly_iff.mp (ih ready).1).2.2
    rw [threads] at inside
    exact inside.among

end Action

theorem cancelThreads_onward_among {services : Services σ} {given : Notice → Prop}
    {first : List Thread} (t : Thread) (rest : List Thread) {w v : World σ}
    (earlier : cancelThreads services first w = ⟨.ok (), (), v⟩) :
    Onward given (t.execution.cancel services v).world.journal
      (cancelThreads services (first ++ t :: rest) w).world.journal := by
  induction first generalizing w with
  | nil =>
    rw [cancelThreads] at earlier
    cases earlier
    obtain ⟨branch, e⟩ := t
    rw [List.nil_append, cancelThreads]
    exact Outcome.bind_onward .refl fun _ _ _ => cancelThreads_onward rest _
  | cons s others ih =>
    obtain ⟨branch, e⟩ := s
    rw [cancelThreads] at earlier
    rw [List.cons_append, cancelThreads]
    rcases cancelled : e.cancel services w with ⟨result, x, u⟩
    rw [cancelled] at earlier
    cases result with
    | error error => cases earlier
    | ok _ => exact ih earlier

namespace Execution

variable {services : Services σ} {given : Notice → Prop} {e : Execution} {b : Block}
  {rest : List Block} {w v : World σ}

/-- What a block records on its arrival is recorded where it is entered. -/
theorem enter_onward_arrived {handle : Option Nat} (now : e.ahead = b :: rest)
    (registered : b.register services w = (.ok handle, v)) :
    Onward given (Block.arrive services e.address { b with handle } v).world.journal
      (e.enter services w).world.journal := by
  have noted (c : Block) (u : World σ) : Onward given u.journal (e.noteEntered c u).journal :=
    .aside trivial .refl
  rw [enter_block services now registered]
  refine Outcome.bind_onward .refl fun leaves part u => ?_
  cases leaves with
  | false => exact noted _ _
  | true =>
    refine (noted _ _).trans (Outcome.bind_onward (Block.leave_onward _ _) fun _ c u => ?_)
    exact (e.noteLeft_onward c u).trans (enter_onward _ _)

theorem Passes.dispatch_delivered {branch : Nat} {join : Join} {before after : List Thread}
    {t : Thread} {event : Event} {path : List Nat} {x : Execution}
    (passes : e.Passes branch b rest join before t after)
    (delivered : t.execution.dispatch services event path w = ⟨.ok (), x, v⟩) :
    e.dispatch services event (branch :: path) w =
      e.afterThread services b rest join before after { t with execution := x } v := by
  rw [dispatch_thread passes.running passes.now passes.group passes.found, delivered,
    Outcome.bind_ok]

end Execution

namespace Action

/-- The world after the operation. -/
def world (services : Services σ) : Action → World σ → World σ
  | .enter e, w => (e.enter services w).world
  | .startThreads pending started join, w =>
    (Stepwise.startThreads services pending started join w).world
  | .complete join others, w => (join.complete services others w).world
  | .leave b ahead e, w => (e.leave services b ahead w).world
  | .dispatch event path e, w => (e.dispatch services event path w).world

/-- The execution that the operation leaves if it is answered has the property. -/
def Yields (services : Services σ) (P : Execution → World σ → Prop) : Action → World σ → Prop
  | .enter e, w => (e.enter services w).Yields fun _ e' v => P e' v
  | .leave b ahead e, w => (e.leave services b ahead w).Yields fun _ e' v => P e' v
  | .dispatch event path e, w => (e.dispatch services event path w).Yields fun _ e' v => P e' v
  | _, _ => True

variable {services : Services σ} {a a' : Action} {t : Thread} {w w' v : World σ}

theorem Yields.and {P Q : Execution → World σ → Prop} (first : a.Yields services P w)
    (second : a.Yields services Q w) : a.Yields services (fun e v => P e v ∧ Q e v) w := by
  have both {o : Outcome σ Execution Unit} (first : o.Yields fun _ e v => P e v)
      (second : o.Yields fun _ e v => Q e v) : o.Yields fun _ e v => P e v ∧ Q e v :=
    (Outcome.Ends.and first second).yields fun _ _ _ held => held
  cases a with
  | enter e => exact both first second
  | leave b ahead e => exact both first second
  | dispatch event path e => exact both first second
  | startThreads | complete => trivial

theorem Yields.mono {P Q : Execution → World σ → Prop} (yields : a.Yields services P w)
    (wider : ∀ e, P e (a.world services w) → Q e (a.world services w)) : a.Yields services Q w := by
  have wider_yields {o : Outcome σ Execution Unit} (yields : o.Yields fun _ e v => P e v)
      (wider : ∀ e, P e o.world → Q e o.world) : o.Yields fun _ e v => Q e v :=
    Outcome.yields_iff.mpr fun answer answered =>
      wider o.part (Outcome.yields_iff.mp yields answer answered)
  cases a with
  | enter e => exact wider_yields yields wider
  | leave b ahead e => exact wider_yields yields wider
  | dispatch event path e => exact wider_yields yields wider
  | startThreads | complete => trivial

/-- An operation that another one begins is part of it. -/
theorem Begins.recorded (begins : Begins services a w a' w') (ready : a.Ready) :
    Onward (fun _ => True) (a'.world services w').journal (a.world services w).journal := by
  cases begins with
  | @group e b rest handle join w v now registered activity some_branch =>
    have arrival : (Block.arrive services e.address { b with handle } v).world =
        (Stepwise.startThreads services (join.threads e.address) [] join.opened
          (v.noteOpened join.branches)).world := by
      rw [Block.arrive_group services e.address (b := { b with handle }) v activity some_branch]
      rfl
    simp only [world]
    rw [← arrival]
    exact Execution.enter_onward_arrived now registered
  | next now registered arrives leaves =>
    simp only [world]
    rw [Execution.enter_block services now registered, arrives, Outcome.bind_ok]
    simp only [if_true, leaves, Outcome.bind_ok]
    exact .refl
  | start =>
    simp only [world]
    rw [Stepwise.startThreads]
    refine Outcome.bind_onward .refl fun _ _ _ => ?_
    split
    · refine Outcome.bind_onward (Join.complete_onward _ _ _) fun ended part u => ?_
      cases ended with
      | true => exact .refl
      | false => exact ready.1.later.onward _ _ u
    · exact ready.1.later.onward _ _ _
  | finishes entered finished =>
    simp only [world]
    rw [Stepwise.startThreads, entered, Outcome.bind_ok, if_pos finished]
    refine Outcome.bind_onward .refl fun ended _ _ => ?_
    cases ended with
    | true => exact .refl
    | false => exact ready.1.later.onward _ _ _
  | others entered finished counted =>
    simp only [world]
    rw [Stepwise.startThreads, entered, Outcome.bind_ok, if_pos finished, counted]
    exact .refl
  | waits entered unfinished =>
    simp only [world]
    rw [Stepwise.startThreads, entered, Outcome.bind_ok, if_neg (Bool.eq_false_iff.mp unfinished)]
    exact .refl
  | reacts running now reacted =>
    simp only [world]
    rw [Execution.dispatch_here running now, reacted]
    exact .refl
  | passes passes =>
    simp only [world]
    rw [Execution.dispatch_thread passes.running passes.now passes.group passes.found]
    exact Outcome.bind_onward .refl fun _ _ _ => Execution.afterThread_onward _ _ _ _ _ _ _ _
  | counts passes delivered finished =>
    simp only [world]
    rw [passes.dispatch_delivered delivered, Execution.afterThread]
    simp only [finished, if_true]
    refine Outcome.bind_onward .refl fun ended _ _ => ?_
    cases ended with
    | true => exact Execution.leave_onward _ _ _ _
    | false => exact .refl
  | ends passes delivered finished counted =>
    simp only [world]
    rw [passes.dispatch_delivered delivered, Execution.afterThread]
    simp only [finished, if_true, counted, Outcome.bind_ok]
    exact .refl
  | onward cancelled leaves =>
    simp only [world]
    rw [Execution.leave, cancelled, Outcome.bind_ok, leaves, Outcome.bind_ok]
    exact .refl

/-- What a cancelled thread gives back is given back during the operation. -/
theorem Cancels.recorded (cancels : Cancels services a w t v) (ready : a.Ready) :
    Onward (fun _ => True) (t.execution.cancel services v).world.journal
      (a.world services w).journal := by
  induction cancels with
  | @joined join first rest t w v enough earlier =>
    refine (cancelThreads_onward_among t rest earlier).trans ?_
    simp only [world, Join.complete, enough, or_true, if_true]
    refine Outcome.bind_onward .refl fun _ _ _ => ?_
    split <;> exact .refl
  | @left b ahead e first rest t w v threads earlier =>
    refine (cancelThreads_onward_among t rest earlier).trans ?_
    rw [← threads]
    simp only [world]
    rw [Execution.leave]
    refine Outcome.bind_onward .refl fun _ _ _ => ?_
    refine Outcome.bind_onward (Block.leave_onward _ _) fun _ c u => ?_
    exact (Sequence.noteLeft_onward _ c u).trans (Execution.enter_onward _ _)
  | begun begins cancels ih => exact (ih (begins.ready ready)).trans (begins.recorded ready)
  | @inside a first rest t t' w v u cancels running threads earlier ih =>
    refine Onward.trans ?_ (ih ready)
    refine (cancelThreads_onward_among t' rest earlier).trans ?_
    rw [← threads]
    obtain ⟨branch, line, nested⟩ := t
    rw [Execution.cancel, if_pos running]
    exact Outcome.bind_onward .refl fun _ _ _ => Sequence.halt_onward _ _

end Action

namespace Run

variable {services : Services σ} {r : Run σ} {call : Call} {a : Action} {t : Thread} {w v : World σ}

/-- The call of the run is this operation, begun in this world. -/
inductive Begins (services : Services σ) (r : Run σ) : Call → Action → World σ → Prop
  | reminded {reminder : Reminder} {description : String} {id : Nat} {v : World σ}
      (unstarted : r.root.started = false) (reminds : r.root.reminder = some reminder)
      (described : r.root.description = some description)
      (added : r.world.addReminder services description reminder = (.ok id, v)) :
      Begins services r .start (.enter { r.root with started := true, handle := some id }) v
  | unreminded (unstarted : r.root.started = false)
      (none : r.root.reminder = none ∨ r.root.description = none) :
      Begins services r .start (.enter { r.root with started := true }) r.world
  | event (path : List Nat) (event : Event) :
      Begins services r (.dispatch path event) (.dispatch event path r.root) r.world

/-- The operation is a part of the call. -/
inductive Performs (services : Services σ) (r : Run σ) (call : Call) : Action → World σ → Prop
  | begins {a : Action} {w : World σ} (begins : r.Begins services call a w) :
      r.Performs services call a w
  | further {a a' : Action} {w w' : World σ} (performs : r.Performs services call a w)
      (begins : a.Begins services w a' w') : r.Performs services call a' w'

theorem Begins.world (begins : r.Begins services call a w) :
    (a.world services w) = (r.perform services call).world := by
  cases begins with
  | reminded unstarted reminds described added =>
    simp only [perform, start, unstarted, Bool.false_eq_true, if_false, begin, reminds, described,
      added]
    rfl
  | unreminded unstarted none =>
    simp only [perform, start, unstarted, Bool.false_eq_true, if_false, begin]
    split
    · next reminder description reminds described =>
      rcases none with none | none
      · cases reminds.symm.trans none
      · cases described.symm.trans none
    · rfl
  | event path event => rfl

variable {blocks : List HostBlock}

theorem Begins.ready {hand : Handed} (begins : r.Begins services call a w)
    (custody : r.InCustody hand) : a.Ready := by
  cases begins with
  | reminded | unreminded => trivial
  | event path event => exact (Execution.orderly_iff.mp custody.orderly).2.2

end Run

namespace Run

variable {r : Run InMemory} {blocks : List HostBlock} {call : Call} {a : Action} {t : Thread}
  {w v : World InMemory}

/-- A thread that a call cancels gives back the reminders and the pause tokens that are held in it,
and the countdown if it is one of its waits that it belongs to. All else stays, nothing is made or
entered, and nothing is started or paused. -/
theorem cancelled_gives_back (assembled : r.Assembled blocks) (calls : List Call)
    (begins : (r.after InMemory.services calls).Begins InMemory.services call a w)
    (cancels : a.Cancels InMemory.services w t v) (willing : v.host.Willing) :
    let o := t.execution.cancel InMemory.services v
    o.result = .ok () ∧
      o.world.host.reminders.active =
        v.host.reminders.active.filter (·.1 ∉ t.execution.held) ∧
      o.world.pause.outstanding = v.pause.outstanding.diff t.execution.sleepTokens ∧
      o.world.host.countdown.running =
        v.host.countdown.running.filter (·.route ∉ t.execution.counting) ∧
      Adds (Entry.IsParting fun _ => True) v.journal o.world.journal := by
  obtain ⟨orderly, plain⟩ :=
    cancels.thread (begins.ready (inCustody_after assembled.inCustody calls))
  obtain ⟨answered, returned⟩ := Execution.cancel_gives willing orderly plain
  exact ⟨answered, returned.active, returned.outstanding, returned.running,
    Execution.cancel_adds (t.execution.within_all fun _ => trivial) v⟩

/-- The second of two waits that lose to a task. It has a reminder, a pause token and the countdown,
and the first one, which has lost the countdown, is cancelled before it. -/
theorem cancelled_gives_back_dinner :
    let now := dinner.after InMemory.services [.start]
    ∃ (first second third : Thread) (v : World InMemory),
      (now.root.threads = [first, second, third] ∧
        (Action.dispatch .done [0] now.root).Cancels InMemory.services now.world third v ∧
        v.host.Willing ∧ third.execution.held = [1] ∧ third.execution.sleepTokens = [0] ∧
        third.execution.counting = [[2]] ∧ v.host.reminders.ids = [1] ∧
        v.pause.outstanding = [0] ∧ v.host.countdown.running.map (·.route) = some [2]) ∧
      let o := third.execution.cancel InMemory.services v
      o.result = .ok () ∧
        o.world.host.reminders.active =
          v.host.reminders.active.filter (·.1 ∉ third.execution.held) ∧
        o.world.pause.outstanding = v.pause.outstanding.diff third.execution.sleepTokens ∧
        o.world.host.countdown.running =
          v.host.countdown.running.filter (·.route ∉ third.execution.counting) ∧
        Adds (Entry.IsParting fun _ => True) v.journal o.world.journal := by
  intro now
  let b := now.root.ahead.head (by decide +kernel)
  let join := b.join?.get (by decide +kernel)
  let first := now.root.threads.get ⟨0, by decide +kernel⟩
  let second := now.root.threads.get ⟨1, by decide +kernel⟩
  let third := now.root.threads.get ⟨2, by decide +kernel⟩
  let served := first.execution.dispatch InMemory.services .done [] now.world
  let cooled := cancelThreads InMemory.services [second] served.world
  have threads : now.root.threads = [first, second, third] := by
    refine List.ext_getElem (by decide +kernel) fun n _ small => ?_
    match n, small with
    | 0, _ | 1, _ | 2, _ => rfl
  have found : findThread 0 now.root.threads = some ([], first, [second, third]) := by
    have branch : first.branch = 0 := by decide +kernel
    rw [threads, findThread, if_pos branch]
  have passes : now.root.Passes 0 b now.root.ahead.tail join [] first [second, third] :=
    ⟨by decide +kernel, (List.cons_head_tail _).symm, (Option.some_get _).symm, found⟩
  have counts : (Action.dispatch .done [0] now.root).Begins InMemory.services now.world
      (.complete join [second, third]) served.world :=
    .counts passes (Outcome.eq_of_answered (by decide +kernel)) (by decide +kernel)
  have joined : (Action.complete join ([second] ++ [third])).Cancels InMemory.services served.world
      third cooled.world :=
    .joined (by decide +kernel) (Outcome.eq_of_answered (by decide +kernel))
  have cancels : (Action.dispatch .done [0] now.root).Cancels InMemory.services now.world third
      cooled.world := .begun counts joined
  have unrefused : cooled.world.host.reminders.failing = false := by decide +kernel
  have willing : cooled.world.host.Willing := ⟨unrefused, by decide +kernel⟩
  refine ⟨first, second, third, cooled.world, ⟨threads, cancels, willing, ?_⟩, ?_⟩
  · decide +kernel
  · exact cancelled_gives_back (assembled_ofWorkflow _ _) [.start] (.event [0] .done) cancels willing

end Run

end Stepwise
