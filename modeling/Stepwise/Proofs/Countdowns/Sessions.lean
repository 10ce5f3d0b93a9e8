import Stepwise.Proofs.Countdowns.Delivery
import Stepwise.Session
import Stepwise.Validation

/-!
# Sessions that can be completed

A session without the permission to skip waits can be brought to its end just if its tree can be,
with the one countdown that runs. Two waits in threads of one group that has to wait for both are
the shortest session that cannot: the second one takes the countdown of the first one over.
-/

namespace Stepwise

open InMemory (Displays)

namespace Run

variable {r : Run InMemory} {before : Option (List Nat)}

/-- What every command of a session keeps of its run. -/
structure Orderly (r : Run InMemory) : Prop where
  willing : r.world.host.Willing
  hooks : r.root.HooksSucceed
  rests : r.root.Over ∨ r.root.Settled
  routed : r.root.Routed
  address : r.root.address = []

/-- The run can be brought to its end by commands. -/
def completable (r : Run InMemory) : Bool := r.root.endable r.world.host.route

theorem Orderly.settled (orderly : r.Orderly) (unfinished : r.root.finished = false) :
    r.root.Settled := by
  rcases orderly.rests with ended | settled
  · exact absurd (ended.finished.symm.trans unfinished) Bool.true_eq_false.mp
  · exact settled

theorem Orderly.completable_of_finished (orderly : r.Orderly) (finished : r.root.finished = true) :
    r.completable = true := by
  rcases orderly.rests with ended | settled
  · exact Execution.endable_nil ended.ahead _
  · exact absurd (settled.unfinished.symm.trans finished) Bool.false_ne_true

theorem Orderly.of_follows (orderly : r.Orderly) {e : Execution} {w : World InMemory}
    {route route' : Option (List Nat)} (shown : Displays (· = route') w.host)
    (follows : r.root.Follows e route route') : Orderly ⟨e, w⟩ where
  willing := shown.willing
  hooks := follows.becomes.hooks
  rests := follows.becomes.rests
  routed := follows.routed
  address := follows.becomes.address.trans orderly.address

theorem orderly_enter {e : Execution} (running : e.isRunning = true)
    (hooks : ∀ c ∈ e.ahead, c.HooksSucceed) (address : e.address = []) {w : World InMemory}
    (willing : w.host.Willing) : Orderly (ofOutcome (e.enter InMemory.services w)).2 := by
  obtain ⟨e', w', route', entered, shown', lands⟩ :=
    Execution.enter_board running hooks w.host.route w ⟨willing, rfl⟩
  obtain ⟨e₁, w₁, entered₁, -, at_e⟩ :=
    Execution.enter_lands InMemory.reliable running hooks w willing
  rw [entered] at entered₁
  cases entered₁
  have moved := at_e.becomes
  rw [entered]
  exact ⟨shown'.willing, moved.hooks, moved.rests, lands.routed, moved.address.trans address⟩

theorem orderly_start (w : Workflow) :
    ((ofWorkflow w InMemory.empty).start InMemory.services).2.Orderly := by
  have entered (handle : Option Nat) (v : World InMemory) (willing : v.host.Willing) : Orderly
      (ofOutcome (Execution.enter InMemory.services
        { Execution.ofWorkflow w with started := true, handle } v)).2 :=
    orderly_enter rfl (Block.hooksSucceed_ofTemplates w.blocks) rfl willing
  show Orderly (ofOutcome (begin InMemory.services (ofWorkflow w InMemory.empty).root
    (ofWorkflow w InMemory.empty).world)).2
  unfold begin
  simp only
  split
  · next reminder description _ _ =>
    obtain ⟨id, v, added, willing⟩ := World.addReminder_ok InMemory.reliable.calm description
      reminder (w := (ofWorkflow w InMemory.empty).world) InMemory.willing_empty
    simp only [added]
    exact entered (some id) v willing
  · exact entered none _ InMemory.willing_empty

/-- An event leaves the run orderly, and completable only if it was. -/
theorem Orderly.dispatch (orderly : r.Orderly) {event : Event} (unskipped : event ≠ .skip)
    (path : List Nat) (fades : Execution.Fades before r.world.host.route)
    (own : event = .elapsed → before = some path) :
    (r.dispatch InMemory.services path event).2.Orderly ∧
      ((r.dispatch InMemory.services path event).2.completable = true →
        r.root.endable before = true) := by
  cases unfinished : r.root.finished with
  | true =>
    have idle : r.root.isRunning = false := by
      simp only [Sequence.isRunning, unfinished, Bool.not_true, Bool.and_false, Bool.false_and]
    rw [dispatch_of_idle idle]
    refine ⟨⟨orderly.willing, orderly.hooks, orderly.rests, orderly.routed, orderly.address⟩, ?_⟩
    exact Execution.endable_of_fades fades
  | false =>
    obtain ⟨e', w', route', delivered, shown', follows, able⟩ :=
      Execution.dispatch_board (orderly.settled unfinished) orderly.hooks orderly.routed unskipped
        path fades (by rwa [orderly.address, List.nil_append]) ⟨orderly.willing, rfl⟩
    simp only [Run.dispatch, delivered, ofOutcome]
    refine ⟨orderly.of_follows shown' follows, fun completable => able ?_⟩
    rw [← shown'.route]
    exact completable

/-- A world in which nothing was asked of the countdown. -/
theorem Orderly.world (orderly : r.Orderly) {w : World InMemory}
    (shown : Displays (· = r.world.host.route) w.host) :
    Orderly ⟨r.root, w⟩ ∧ completable ⟨r.root, w⟩ = r.completable := by
  refine ⟨⟨shown.willing, orderly.hooks, orderly.rests, orderly.routed, orderly.address⟩, ?_⟩
  rw [completable, completable, shown.route]

/-- The run with the running countdown taken off the board. -/
def elapse (r : Run InMemory) : Run InMemory :=
  r.changeHost fun host => { host with countdown := host.countdown.elapse.2 }

theorem Orderly.elapse (orderly : r.Orderly) : r.elapse.Orderly :=
  ⟨⟨orderly.willing.reminders, orderly.willing.countdown⟩, orderly.hooks, orderly.rests,
    orderly.routed, orderly.address⟩

end Run

namespace Command

/-- The command can be typed. What stands for a countdown that runs out is `wait`. -/
def Typed : Command → Prop
  | .event _ .elapsed => False
  | _ => True

/-- The command goes on with a session, and does not skip a wait. -/
def Continues : Command → Prop
  | .event _ .elapsed | .event _ .skip | .status | .help | .quit => False
  | _ => True

theorem Continues.typed {command : Command} (continues : command.Continues) : command.Typed := by
  cases command with
  | event path event =>
    cases event with
    | elapsed => exact continues.elim
    | _ => trivial
  | _ => trivial

end Command

namespace Session

variable {s : Session}

/-- The session after commands, each with the time of its turn. -/
def carry (s : Session) : List (Command × Int) → Session
  | [] => s
  | (command, now) :: commands => (s.apply command now).session.carry commands

theorem session_turn (output : List Output) (answer : Except RunError Unit) (s : Session) :
    (s.turn output answer).session = s := by
  unfold turn
  split <;> rfl

theorem run_call (now : Int) (answer : Except RunError Unit × Run InMemory) (s : Session) :
    (s.call now answer).session.run = answer.2 := by
  unfold call follow
  rw [session_turn]

theorem options_call (now : Int) (answer : Except RunError Unit × Run InMemory) (s : Session) :
    (s.call now answer).session.options = s.options := by
  unfold call follow
  rw [session_turn]

theorem session_start (now : Int) (s : Session) :
    (s.start now).session = (s.call now (s.run.start services)).session := by
  simp only [start]
  split
  · rfl
  · rfl

/-- What every command keeps of a session without the permission to skip waits. -/
structure Orderly (s : Session) : Prop where
  run : s.run.Orderly
  unskippable : s.options.skipSleep = false

theorem orderly_start (o : Options) (paint : Paint) (w : Workflow) (now : Int)
    (unskippable : o.skipSleep = false) : ((ofWorkflow o paint w).start now).session.Orderly := by
  rw [session_start]
  refine ⟨?_, ?_⟩
  · rw [run_call]
    exact Run.orderly_start w
  · rw [options_call]
    exact unskippable

/-- A command leaves the session orderly, and completable only if it was. -/
structure Follows (s s' : Session) : Prop where
  orderly : s'.Orderly
  completable : s'.run.completable = true → s.run.completable = true

theorem Orderly.follows_self (orderly : s.Orderly) : s.Follows s := ⟨orderly, id⟩

theorem Orderly.event (orderly : s.Orderly) {event : Event} (typed : event ≠ .elapsed)
    (path : List Nat) (now : Int) : s.Follows (s.apply (.event path event) now).session := by
  by_cases skips : event = .skip
  · have refused : event = .skip ∧ (!s.options.skipSleep) = true := by
      rw [orderly.unskippable]
      exact ⟨skips, rfl⟩
    simp only [apply, if_pos refused]
    exact orderly.follows_self
  · have granted : ¬ (event = .skip ∧ (!s.options.skipSleep) = true) := fun h => skips h.1
    simp only [apply, if_neg granted]
    obtain ⟨run, completable⟩ := orderly.run.dispatch skips path (Or.inr rfl)
      fun elapsed => absurd elapsed typed
    refine ⟨⟨?_, ?_⟩, ?_⟩
    · rw [run_call]
      exact run
    · rw [options_call]
      exact orderly.unskippable
    · rw [run_call]
      exact completable

/-- What waiting comes to while a countdown runs. -/
theorem run_wait {path : List Nat} (running : s.run.world.host.route = some path) (now : Int) :
    (s.apply .wait now).session =
      (s.call now (s.run.elapse.dispatch services path .elapsed)).session := by
  simp only [apply, wait, CountdownBoard.elapse]
  split
  · next none => exact absurd (none.symm.trans running) nofun
  · next route found =>
    rw [InMemory.route, found] at running
    cases running
    rfl

theorem Orderly.wait (orderly : s.Orderly) (now : Int) :
    s.Follows (s.apply .wait now).session := by
  cases running : s.run.world.host.route with
  | none =>
    have none : s.apply .wait now = s.passOver [.warning "No countdown is running"] := by
      rw [InMemory.route] at running
      simp only [apply, Session.wait, CountdownBoard.elapse, running]
    rw [none]
    exact orderly.follows_self
  | some path =>
    rw [run_wait running]
    have unskipped : Event.elapsed ≠ .skip := by rintro ⟨⟩
    obtain ⟨run, completable⟩ := orderly.run.elapse.dispatch unskipped path (Or.inl rfl)
      fun _ => (rfl : some path = some path)
    refine ⟨⟨?_, ?_⟩, ?_⟩
    · rw [run_call]
      exact run
    · rw [options_call]
      exact orderly.unskippable
    · have was : s.run.completable = s.run.root.endable (some path) := by
        rw [Run.completable, running]
      rw [run_call, was]
      exact completable

theorem Orderly.apply (orderly : s.Orderly) {command : Command} (typed : command.Typed)
    (now : Int) : s.Follows (s.apply command now).session := by
  cases command with
  | event path event =>
    refine orderly.event ?_ path now
    rintro rfl
    exact typed
  | wait => exact orderly.wait now
  | pause =>
    obtain ⟨token, w, requested, shown⟩ := World.requestPause_ok InMemory.calm_displays
      (⟨orderly.run.willing, rfl⟩ : Displays (· = s.run.world.host.route) s.run.world.host)
    obtain ⟨run, same⟩ := orderly.run.world shown
    simp only [Session.apply, pause, Run.requestPause, services, requested, Except.mapError,
      session_turn]
    exact ⟨⟨run, orderly.unskippable⟩, fun h => same.symm.trans h⟩
  | resume =>
    simp only [Session.apply, resume]
    cases tokens : s.tokens with
    | nil =>
      simp only [session_turn]
      exact orderly.follows_self
    | cons token rest =>
      obtain ⟨w, released, shown⟩ := World.releasePause_ok InMemory.calm_displays token
        (⟨orderly.run.willing, rfl⟩ : Displays (· = s.run.world.host.route) s.run.world.host)
      obtain ⟨run, same⟩ := orderly.run.world shown
      simp only [Run.releasePause, services, released, Except.mapError, session_turn]
      exact ⟨⟨run, orderly.unskippable⟩, fun h => same.symm.trans h⟩
  | status =>
    simp only [Session.apply, session_turn]
    exact orderly.follows_self
  | help => exact orderly.follows_self
  | quit => exact orderly.follows_self

theorem Orderly.carry (orderly : s.Orderly) {commands : List (Command × Int)}
    (typed : ∀ c ∈ commands, c.1.Typed) : s.Follows (s.carry commands) := by
  induction commands generalizing s with
  | nil => exact orderly.follows_self
  | cons c rest ih =>
    obtain ⟨command, now⟩ := c
    have first := orderly.apply (typed (command, now) List.mem_cons_self) now
    have later := ih first.orderly fun c mem => typed c (List.mem_cons_of_mem _ mem)
    exact ⟨later.orderly, fun h => first.completable (later.completable h)⟩

/-- What a delivered event leaves of the run, where it advances the root. -/
theorem advance_run {r : Run InMemory} {before : Option (List Nat)} {path : List Nat}
    {event : Event} (advances : r.root.Advances before path event)
    (fades : Execution.Fades before r.world.host.route) (willing : r.world.host.Willing) :
    (r.dispatch services path event).2.completable = true ∧
      (r.dispatch services path event).2.root.Nearer r.root.burden := by
  obtain ⟨e', w', route', delivered, shown', -, able⟩ :=
    advances.able _ r.world fades ⟨willing, rfl⟩
  refine ⟨?_, advances.nearer r.world willing⟩
  simp only [Run.dispatch, services, delivered, Run.ofOutcome]
  rw [Run.completable, shown'.route]
  exact able

/-- A session that can be completed has a command that brings its end nearer. -/
theorem Orderly.step (orderly : s.Orderly) (unfinished : s.run.root.finished = false)
    (completable : s.run.completable = true) : ∃ command : Command, command.Continues ∧
      (s.apply command 0).session.run.completable = true ∧
      (s.apply command 0).session.run.root.Nearer s.run.root.burden := by
  obtain ⟨path, event, advances⟩ := Execution.exists_advance (orderly.run.settled unfinished)
    orderly.run.hooks orderly.run.routed completable
  have answers := advances.answers
  have delivered (typed : event ≠ .elapsed) (unskipped : event ≠ .skip) :
      (s.apply (.event path event) 0).session.run.completable = true ∧
      (s.apply (.event path event) 0).session.run.root.Nearer s.run.root.burden := by
    have granted : ¬ (event = .skip ∧ (!s.options.skipSleep) = true) := fun h => unskipped h.1
    simp only [Session.apply, if_neg granted, run_call]
    exact advance_run advances (Or.inr rfl) orderly.run.willing
  cases event with
  | elapsed =>
    have running : s.run.world.host.route = some path := by
      rw [advances.own rfl, orderly.run.address, List.nil_append]
    refine ⟨.wait, trivial, ?_⟩
    rw [run_wait running, run_call]
    exact advance_run (r := s.run.elapse) advances (Or.inl rfl) orderly.run.elapse.willing
  | done => exact ⟨.event path .done, trivial, delivered nofun nofun⟩
  | yes => exact ⟨.event path .yes, trivial, delivered nofun nofun⟩
  | no => exact ⟨.event path .no, trivial, delivered nofun nofun⟩
  | skip => exact answers.elim
  | tick remaining => exact answers.elim

theorem Orderly.completes (orderly : s.Orderly) (completable : s.run.completable = true) :
    ∃ more : List (Command × Int), (∀ c ∈ more, c.1.Continues) ∧
      (s.carry more).run.root.finished = true := by
  induction size : s.run.root.burden using Nat.strongRecOn generalizing s with
  | ind n ih =>
  subst size
  cases unfinished : s.run.root.finished with
  | true => exact ⟨[], nofun, unfinished⟩
  | false =>
    obtain ⟨command, continues, still, nearer⟩ := orderly.step unfinished completable
    have next := orderly.apply continues.typed 0
    rcases nearer with finished | less
    · refine ⟨[(command, 0)], ?_, finished⟩
      intro c mem
      rw [List.mem_singleton.mp mem]
      exact continues
    · obtain ⟨more, all, finished⟩ := ih _ less next.orderly still rfl
      refine ⟨(command, 0) :: more, ?_, finished⟩
      exact List.forall_mem_cons.mpr ⟨continues, all⟩

theorem Orderly.completable_of_carry (orderly : s.Orderly) {more : List (Command × Int)}
    (continue_all : ∀ c ∈ more, c.1.Continues)
    (finished : (s.carry more).run.root.finished = true) : s.run.completable = true := by
  have follows := orderly.carry fun c mem => (continue_all c mem).typed
  exact follows.completable (follows.orderly.run.completable_of_finished finished)

/-- In every state of a session of a workflow that is carried out without the permission to skip
waits: some list of commands finishes the run just if its tree can be brought to its end. -/
theorem completes_iff (o : Options) (unskippable : o.skipSleep = false) (paint : Paint)
    (w : Workflow) (now : Int) (commands : List (Command × Int))
    (typed : ∀ c ∈ commands, c.1.Typed) :
    let s := ((ofWorkflow o paint w).start now).session.carry commands
    (∃ more : List (Command × Int), (∀ c ∈ more, c.1.Continues) ∧
        (s.carry more).run.root.finished = true) ↔
      s.run.root.endable s.run.world.host.route = true := by
  intro s
  have orderly : s.Orderly := ((orderly_start o paint w now unskippable).carry typed).orderly
  constructor
  · rintro ⟨more, continue_all, finished⟩
    exact orderly.completable_of_carry continue_all finished
  · exact orderly.completes

/-- Two waits in threads of one group, of which so many have to end. -/
def twoWaits (choose : UInt64) : Workflow :=
  ⟨"tea", none, none, [.parallel "steep" choose
    [[.sleep 5 .minutes "green" false], [.sleep 9 .minutes "black" false]], .task "serve"]⟩

/-- The second wait has taken over the countdown, and with it the group ends. -/
theorem completes_iff_twoWaits :
    let s := ((ofWorkflow .default .none (twoWaits 1)).start 0).session.carry
      [(.event [1] (.tick .zero), 1), (.pause, 2)]
    (Options.default.skipSleep = false ∧
      ∀ c ∈ [(Command.event [1] (.tick .zero), (1 : Int)), (.pause, 2)], c.1.Typed) ∧
    ∃ more : List (Command × Int), (∀ c ∈ more, c.1.Continues) ∧
      (s.carry more).run.root.finished = true := by
  have typed : ∀ c ∈ [(Command.event [1] (.tick .zero), (1 : Int)), (.pause, 2)], c.1.Typed := by
    intro c mem
    simp only [List.mem_cons, List.not_mem_nil, or_false] at mem
    rcases mem with rfl | rfl <;> trivial
  exact ⟨⟨rfl, typed⟩, (completes_iff .default rfl .none (twoWaits 1) 0 _ typed).mpr
    (by decide +kernel)⟩

/-- A group that needs both waits never ends: nothing ends the first one once the second has taken
its countdown over. -/
theorem twoWaits_stuck :
    let s := ((ofWorkflow .default .none (twoWaits 2)).start 0).session
    ((twoWaits 2).validate.fault = none ∧ s.options.skipSleep = false ∧
      s.run.root.isRunning = true) ∧
    ¬ ∃ more : List (Command × Int), (∀ c ∈ more, c.1.Continues) ∧
      (s.carry more).run.root.finished = true := by
  intro s
  refine ⟨⟨by decide +kernel, by decide +kernel, by decide +kernel⟩, ?_⟩
  rintro ⟨more, continue_all, finished⟩
  have orderly : s.Orderly := orderly_start .default .none (twoWaits 2) 0 rfl
  have stuck : s.run.completable = false := by decide +kernel
  have able := orderly.completable_of_carry continue_all finished
  exact Bool.false_ne_true (stuck.symm.trans able)

end Session

end Stepwise
