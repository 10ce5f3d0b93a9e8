import Stepwise.Proofs.Countdowns.Minding.Delivery
import Stepwise.Proofs.Countdowns.Sessions
import Stepwise.Proofs.Progress

/-!
# Countdowns that nobody attends to

The running countdown of a session is that of the wait that set it, which is current and running. A
wait goes by the seconds that it was told last, though, and not by whether its countdown runs: once
progress without any seconds left has been reported for it, it is cancelled or left without a word
to the countdown, which then runs on for a route where nothing waits for it.
-/

namespace Stepwise

namespace World

variable (w : World InMemory)

theorem requestPause_changes :
    w.Changes Nowhere Nowhere (w.requestPause InMemory.services).2 := by
  have adds : Adds (Entry.IsProgress Nowhere True) w.journal
      (w.requestPause InMemory.services).2.journal := w.requestPause_adds
  have kept := Monitor.requestPause (Monitor.fine_ofBoard w [])
  exact .of_progress adds (Answered.world (P := w.Replays) kept)

theorem releasePause_changes (token : Nat) :
    w.Changes Nowhere Nowhere (w.releasePause InMemory.services token).2 := by
  have kept := Monitor.releasePause token (Monitor.fine_ofBoard w [])
  exact .of_parting (w.releasePause_adds token) (Answered.world (P := w.Replays) kept)

end World

namespace Run

variable {excused excused' : Nat → Countdown → Prop} {r : Run InMemory}

/-- What every command of a session keeps of its run. -/
structure Minding (excused : Nat → Countdown → Prop) (r : Run InMemory) : Prop where
  sound : r.Sound InMemory.Willing
  inOrder : r.InOrder
  address : r.root.address = []
  minds : r.world.Minds excused (r.root.address <+: ·) (r.root.Attends ·)

theorem Minding.mono (minding : r.Minding excused)
    (more : ∀ number c, excused number c → excused' number c) : r.Minding excused' := by
  refine ⟨minding.sound, minding.inOrder, minding.address, ?_⟩
  intro c running here
  exact (minding.minds c running here).imp_left (more _ c)

/-- No countdown runs. -/
theorem minds_of_empty {w : World InMemory} (empty : w.host.countdown.running = none)
    (place : List Nat → Prop) (attends : Setting → Prop) : w.Minds excused place attends := by
  intro c running
  exact absurd (empty.symm.trans running) nofun

theorem begin_minds {e : Execution} {w : World InMemory}
    (empty : w.host.countdown.running = none) (threadless : e.threads = [])
    (running : ({ e with started := true } : Execution).isRunning = true) :
    (begin InMemory.services e w).Yields fun _ e' v =>
      v.Minds excused (e.address <+: ·) (e'.Attends ·) := by
  have entered (handle : Option Nat) (v : World InMemory)
      (empty : v.host.countdown.running = none) :
      (Execution.enter InMemory.services { e with started := true, handle } v).Yields fun _ e' u =>
        u.Minds excused (e.address <+: ·) (e'.Attends ·) :=
    Execution.enter_minds { e with started := true, handle } threadless running v
      (minds_of_empty empty _ _)
  unfold begin
  simp only
  split
  · next reminder description _ _ =>
    have same : (w.addReminder InMemory.services description reminder).2.host.countdown.running =
        none := empty
    split
    · trivial
    · next id v added =>
      rw [added] at same
      exact entered (some id) v same
  · exact entered e.handle w empty

theorem minding_start (w : Workflow) :
    ((ofWorkflow w InMemory.empty).start InMemory.services).2.Minding excused := by
  have fresh := fresh_ofWorkflow w InMemory.empty
  have sound : (ofWorkflow w InMemory.empty).Sound InMemory.Willing := by
    apply fresh.sound _ InMemory.willing_empty
    intro b mem
    obtain ⟨t, -, rfl⟩ := List.mem_map.mp mem
    exact HostBlock.succeeds_plain t
  have evolves := perform_evolves InMemory.services fresh.inOrder .start
  have same : ((ofWorkflow w InMemory.empty).start InMemory.services).2.root.address = [] :=
    evolves.grows.line.address
  refine ⟨sound_start InMemory.reliable sound, inOrder_perform InMemory.services _ .start
    fresh.inOrder, same, ?_⟩
  rw [same]
  exact sound.start_yields InMemory.reliable rfl (begin_minds rfl rfl rfl)

/-- An event that leaves a wait without seconds has to be excused for the countdown of its route. -/
theorem Minding.dispatch (minding : r.Minding excused) (path : List Nat) (event : Event)
    (spent : event.Exhausts → r.world.Minds excused (· = path) Unattended) :
    (r.dispatch InMemory.services path event).2.Minding excused := by
  have evolves := perform_evolves InMemory.services minding.inOrder (.dispatch path event)
  refine ⟨sound_dispatch InMemory.reliable minding.sound path event,
    inOrder_perform InMemory.services r (.dispatch path event) minding.inOrder,
    evolves.grows.line.address.trans minding.address, ?_⟩
  have delivered := Execution.dispatch_minds minding.inOrder.addressed event path minding.minds
    (by rwa [minding.address, List.nil_append])
  have same : (r.dispatch InMemory.services path event).2.root.address = r.root.address :=
    evolves.grows.line.address
  rw [same]
  exact minding.sound.dispatch_yields InMemory.reliable path event delivered

theorem Minding.elapse (minding : r.Minding excused) : r.elapse.Minding excused where
  sound := ⟨⟨minding.sound.good.reminders, minding.sound.good.countdown⟩, minding.sound.hooks,
    minding.sound.state⟩
  inOrder := ⟨minding.inOrder.addressed, minding.inOrder.unstarted⟩
  address := minding.address
  minds := minds_of_empty rfl _ _

/-- The root is left alone, and nothing is set. -/
theorem Minding.world (minding : r.Minding excused) {v : World InMemory}
    (changes : r.world.Changes Nowhere Nowhere v) (willing : v.host.Willing) :
    Minding excused ⟨r.root, v⟩ where
  sound := ⟨willing, minding.sound.hooks, minding.sound.state⟩
  inOrder := ⟨minding.inOrder.addressed, minding.inOrder.unstarted⟩
  address := minding.address
  minds := minding.minds.later changes (fun _ _ => id) fun _ attends _ => ⟨id, attends⟩

end Run

/-- The countdown is that of a running wait: its thread is at the route of the countdown and is
running, the wait is the current block there, and it is the block that set this countdown. -/
def Run.Attended (r : Run InMemory) (c : Countdown) : Prop :=
  ∃ x b sleep, r.root.thread? c.route = some x ∧ x.isRunning = true ∧ x.current? = some b ∧
    b.activity = .sleep sleep ∧
    ∃ m : Setting, m.countdown = c ∧ m.Latest r.world.journal ∧
      m = ⟨sleep.value, sleep.unit, x.address, x.cursor⟩

theorem Execution.Addressed.attends_thread {m : Setting} {e : Execution} (addressed : e.Addressed)
    (attends : e.Attends m) : ∃ path x, m.route = e.address ++ path ∧ e.thread? path = some x ∧
      x.isRunning = true ∧ x.toSequence.Counts m := by
  induction addressed with
  | @intro e increasing address _ ih =>
    obtain ⟨running, counts | inside⟩ := attends_iff.mp attends
    · have here : m.route = e.address ++ [] := by
        obtain ⟨b, s, -, -, -, -, rfl⟩ := counts
        exact (List.append_nil _).symm
      exact ⟨[], e, here, rfl, running, counts⟩
    · obtain ⟨t, mem, attends_t⟩ := (anyAttends_iff _).mp inside
      obtain ⟨path, x, route, found, running, counts⟩ := ih t mem attends_t
      refine ⟨t.branch :: path, x, ?_, ?_, running, counts⟩
      · rw [route, address t mem, List.append_assoc, List.singleton_append]
      · obtain ⟨before, after, threads⟩ := List.append_of_mem mem
        rw [threads] at increasing
        rw [thread?_cons, threads, find_increasing increasing rfl]
        exact found

/-- In every state, the running countdown is attended to unless it is excused. -/
theorem Run.Minding.attended {excused : Nat → Countdown → Prop} {r : Run InMemory}
    (minding : r.Minding excused) {c : Countdown} (running : r.world.host.countdown.running = some c) :
    r.Attended c ∨ excused r.world.host.countdown.started c := by
  have below : r.root.address <+: c.route := by
    rw [minding.address]
    exact List.nil_prefix
  rcases minding.minds c running below with excuse | ⟨m, rfl, latest, attends⟩
  · exact Or.inr excuse
  · left
    obtain ⟨path, x, route, found, x_running, counts⟩ :=
      minding.inOrder.addressed.attends_thread attends
    obtain ⟨b, s, now, asleep, -, -, same⟩ := counts
    rw [minding.address, List.nil_append] at route
    refine ⟨x, b, s, ?_, x_running, now, asleep, m, rfl, latest, same⟩
    rw [Setting.countdown, route]
    exact found

namespace Session

variable {excused : Nat → Countdown → Prop} {s : Session}

/-- Among the commands is progress without any seconds left, reported to the route of the countdown
while it was the running one and so many had been set. -/
def Exhausted (s : Session) (commands : List (Command × Int)) (number : Nat) (c : Countdown) : Prop :=
  ∃ earlier seconds now later,
    commands = earlier ++ (.event c.route (.tick seconds), now) :: later ∧
    seconds.isPositive = false ∧
    (s.carry earlier).run.world.host.countdown.running = some c ∧
    (s.carry earlier).run.world.host.countdown.started = number

theorem Exhausted.append {commands : List (Command × Int)} {number : Nat} {c : Countdown}
    (exhausted : s.Exhausted commands number c) (more : List (Command × Int)) :
    s.Exhausted (commands ++ more) number c := by
  obtain ⟨earlier, seconds, now, later, rfl, spent, running, started⟩ := exhausted
  refine ⟨earlier, seconds, now, later ++ more, ?_, spent, running, started⟩
  rw [List.append_assoc, List.cons_append]

theorem carry_append (s : Session) (commands more : List (Command × Int)) :
    s.carry (commands ++ more) = (s.carry commands).carry more := by
  induction commands generalizing s with
  | nil => rfl
  | cons c rest ih => exact ih _

theorem minding_wait (minding : s.run.Minding excused) (now : Int) :
    (s.apply .wait now).session.run.Minding excused := by
  cases running : s.run.world.host.route with
  | none =>
    have none : s.apply .wait now = s.passOver [.warning "No countdown is running"] := by
      rw [InMemory.route] at running
      simp only [apply, Session.wait, CountdownBoard.elapse, running]
    rw [none]
    exact minding
  | some path =>
    rw [run_wait running, run_call]
    exact minding.elapse.dispatch path .elapsed fun _ => Run.minds_of_empty rfl _ _

/-- The only command that needs an excuse is a report that no seconds are left. -/
theorem minding_apply (minding : s.run.Minding excused) {command : Command}
    (typed : command.Typed) (now : Int)
    (spent : ∀ path seconds, command = .event path (.tick seconds) → seconds.isPositive = false →
      s.run.world.Minds excused (· = path) Unattended) :
    (s.apply command now).session.run.Minding excused := by
  cases command with
  | event path event =>
    by_cases refused : event = .skip ∧ (!s.options.skipSleep) = true
    · simp only [apply, if_pos refused]
      exact minding
    · simp only [apply, if_neg refused, run_call]
      refine minding.dispatch path event fun exhausts => ?_
      cases event with
      | tick seconds => exact spent path seconds rfl exhausts
      | elapsed => exact typed.elim
      | done | yes | no | skip => exact exhausts.elim
  | wait => exact minding_wait minding now
  | pause =>
    obtain ⟨token, v, requested, willing⟩ :=
      World.requestPause_ok InMemory.reliable.calm minding.sound.good
    have changes := s.run.world.requestPause_changes
    rw [requested] at changes
    simp only [Session.apply, pause, Run.requestPause, services, requested, Except.mapError,
      session_turn]
    exact minding.world changes willing
  | resume =>
    simp only [Session.apply, resume]
    cases tokens : s.tokens with
    | nil =>
      simp only [session_turn]
      exact minding
    | cons token rest =>
      obtain ⟨v, released, willing⟩ :=
        World.releasePause_ok InMemory.reliable.calm token minding.sound.good
      have changes := s.run.world.releasePause_changes token
      rw [released] at changes
      simp only [Run.releasePause, services, released, Except.mapError, session_turn]
      exact minding.world changes willing
  | status =>
    simp only [Session.apply, session_turn]
    exact minding
  | help => exact minding
  | quit => exact minding

/-- What was excused by commands before stays excused by the commands in front of those after. -/
theorem minding_carry {commands : List (Command × Int)}
    (minding : (s.carry commands).run.Minding (s.Exhausted commands))
    {more : List (Command × Int)} (typed : ∀ c ∈ more, c.1.Typed) :
    (s.carry (commands ++ more)).run.Minding (s.Exhausted (commands ++ more)) := by
  induction more generalizing commands with
  | nil => rwa [List.append_nil]
  | cons next rest ih =>
    obtain ⟨command, now⟩ := next
    obtain ⟨typed_next, typed_rest⟩ := List.forall_mem_cons.mp typed
    have before := minding.mono fun _ _ (exhausted : s.Exhausted commands _ _) =>
      exhausted.append [(command, now)]
    have after : (s.carry (commands ++ [(command, now)])).run.Minding
        (s.Exhausted (commands ++ [(command, now)])) := by
      rw [carry_append]
      refine minding_apply before typed_next now ?_
      rintro path seconds rfl spent c running rfl
      exact Or.inl ⟨commands, seconds, now, [], rfl, spent, running, rfl⟩
    rw [← List.singleton_append, ← List.append_assoc]
    exact ih after typed_rest

/-- In every state of a session of a workflow, the running countdown is that of the running wait
that set it, unless progress without any seconds left was reported to the countdown's route while it
ran. -/
theorem countdown_attended (o : Options) (paint : Paint) (w : Workflow) (now : Int)
    (commands : List (Command × Int)) (typed : ∀ c ∈ commands, c.1.Typed) :
    let s := ((ofWorkflow o paint w).start now).session
    ∀ c, (s.carry commands).run.world.host.countdown.running = some c →
      (s.carry commands).run.Attended c ∨
        s.Exhausted commands (s.carry commands).run.world.host.countdown.started c := by
  intro s c running
  have started : (s.carry []).run.Minding (s.Exhausted []) := by
    show ((ofWorkflow o paint w).start now).session.run.Minding _
    rw [session_start, run_call]
    exact Run.minding_start w
  exact (minding_carry started typed).attended running

/-- A wait beside a task, either of which is enough. -/
def steeping : Workflow :=
  ⟨"tea", none, none, [.parallel "meanwhile" 1
    [[.task "pour"], [.sleep 5 .minutes "steep" false]], .task "serve"]⟩

/-- The wait has been told that a minute is left, and attends to its countdown. -/
theorem countdown_attended_steeping :
    let s := ((ofWorkflow .default .none steeping).start 0).session
    let commands := [(Command.event [1] (.tick (.ofInt 60)), (1 : Int)), (.pause, 2)]
    (∀ c ∈ commands, c.1.Typed) ∧
      (s.carry commands).run.world.host.countdown.running = some ⟨300, [1]⟩ ∧
      ((s.carry commands).run.Attended ⟨300, [1]⟩ ∨ s.Exhausted commands 1 ⟨300, [1]⟩) := by
  intro s commands
  have typed : ∀ c ∈ commands, c.1.Typed := by
    intro c mem
    simp only [commands, List.mem_cons, List.not_mem_nil, or_false] at mem
    rcases mem with rfl | rfl
    · trivial
    · trivial
  have running : (s.carry commands).run.world.host.countdown.running = some ⟨300, [1]⟩ := by
    decide +kernel
  have number : (s.carry commands).run.world.host.countdown.started = 1 := by decide +kernel
  have attended := countdown_attended .default .none steeping 0 commands typed _ running
  rw [number] at attended
  exact ⟨typed, running, attended⟩

/-- Once the wait has been told that nothing is left, the task cancels it without a word to the
countdown, which runs on for a thread that is gone. -/
theorem countdown_stranded_steeping :
    let s := ((ofWorkflow .default .none steeping).start 0).session
    let commands := [(Command.event [1] (.tick .zero), (1 : Int)), (.event [0] .done, 2)]
    (steeping.validate.fault = none ∧ ∀ c ∈ commands, c.1.Typed) ∧
      (s.carry commands).run.world.host.countdown.running = some ⟨300, [1]⟩ ∧
      (s.carry commands).run.root.thread? [1] = none ∧
      ¬ (s.carry commands).run.Attended ⟨300, [1]⟩ := by
  intro s commands
  have typed : ∀ c ∈ commands, c.1.Typed := by
    intro c mem
    simp only [commands, List.mem_cons, List.not_mem_nil, or_false] at mem
    rcases mem with rfl | rfl
    · trivial
    · trivial
  have gone : (s.carry commands).run.root.thread? [1] = none := by decide +kernel
  refine ⟨⟨by decide +kernel, typed⟩, by decide +kernel, gone, ?_⟩
  rintro ⟨x, -, -, found, -⟩
  exact absurd (gone.symm.trans found) nofun

end Session

end Stepwise
