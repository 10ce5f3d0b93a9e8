import Stepwise.Proofs.Countdowns.Sessions
import Stepwise.Proofs.Pausing.Runs
import Stepwise.Proofs.Records

/-!
# What a session does with its commands

A session takes one command after the other until it is told to quit or its run has finished. Every
command is answered. The tokens that the session keeps are its own and no wait's, whatever was
paused and resumed, and once it has given them back reminders are held back by silent waits alone.
A countdown is ended early only in a session with the permission to skip waits.
-/

namespace Stepwise

theorem mem_threadsTokens {threads : List Thread} {token : Nat} :
    token ∈ threadsTokens threads ↔ ∃ t ∈ threads, token ∈ t.execution.sleepTokens := by
  induction threads with
  | nil => simp
  | cons t rest ih => simp [threadsTokens_cons, ih]

namespace Execution

variable {e x : Execution} {b : Block} {s : Sleep} {path : List Nat} {token : Nat}

/-- A wait that is current at the path holds a token. -/
def HoldsAt (e : Execution) (path : List Nat) (token : Nat) : Prop :=
  ∃ x b s, e.thread? path = some x ∧ x.current? = some b ∧ b.activity = .sleep s ∧
    s.token = some token

theorem holdsAt_nil : e.HoldsAt [] token ↔ ∃ b ∈ e.current?, token ∈ b.tokens := by
  constructor
  · rintro ⟨x, b, s, found, now, activity, held⟩
    cases found
    refine ⟨b, now, ?_⟩
    simp [Block.tokens, activity, held]
  · rintro ⟨b, now, held⟩
    cases activity : b.activity with
    | sleep s =>
      simp only [Block.tokens, activity, Option.mem_toList] at held
      exact ⟨e, b, s, rfl, now, activity, held⟩
    | _ => simp [Block.tokens, activity] at held

theorem HoldsAt.token_mem (holds : e.HoldsAt path token) : token ∈ e.sleepTokens := by
  induction path generalizing e with
  | nil =>
    obtain ⟨b, now, held⟩ := holdsAt_nil.mp holds
    rw [sleepTokens_eq]
    apply List.mem_append_left
    exact List.mem_flatMap.mpr ⟨b, Option.mem_toList.mpr now, held⟩
  | cons branch path ih =>
    obtain ⟨x, b, s, found, held⟩ := holds
    obtain ⟨t, mem, -, -, inside⟩ := thread?_found found
    rw [sleepTokens_eq]
    apply List.mem_append_right
    exact mem_threadsTokens.mpr ⟨t, mem, ih ⟨x, b, s, inside, held⟩⟩

/-- A thread is found under the number of its branch. -/
theorem Settled.thread?_branch (settled : e.Settled) {t : Thread} (mem : t ∈ e.threads)
    (path : List Nat) : e.thread? (t.branch :: path) = t.execution.thread? path := by
  obtain ⟨b, rest, join, group⟩ := settled.atGroup_of_mem mem
  have is_open := settled.at_group group
  obtain ⟨before, after, threads⟩ := List.append_of_mem mem
  rw [threads] at is_open
  rw [thread?_cons, threads, find_increasing is_open.increasing rfl]
  rfl

end Execution

mutual

/-- Every token is that of a wait which is current in a thread. -/
theorem Execution.Settled.exists_holdsAt : ∀ {e : Execution} {token : Nat}, e.Settled →
    token ∈ e.sleepTokens → ∃ path, e.HoldsAt path token
  | ⟨line, threads⟩, token, settled, held => by
    rw [Execution.sleepTokens] at held
    rcases List.mem_append.mp held with here | inside
    · obtain ⟨b, now, held⟩ := List.mem_flatMap.mp here
      exact ⟨[], Execution.holdsAt_nil.mpr ⟨b, Option.mem_toList.mp now, held⟩⟩
    · have each := ((Execution.settled_iff ⟨line, threads⟩).mp settled).2.2
      obtain ⟨t, mem, path, x, found⟩ := exists_holdsAt_of_thread each inside
      refine ⟨t.branch :: path, x, ?_⟩
      rw [Execution.Settled.thread?_branch settled mem]
      exact found

theorem exists_holdsAt_of_thread : ∀ {threads : List Thread} {token : Nat},
    (∀ t ∈ threads, t.execution.Settled) → token ∈ threadsTokens threads →
    ∃ t ∈ threads, ∃ path, t.execution.HoldsAt path token
  | [], _, _, held => absurd held List.not_mem_nil
  | ⟨branch, execution⟩ :: rest, token, each, held => by
    rw [threadsTokens] at held
    rcases List.mem_append.mp held with here | later
    · have settled : execution.Settled := each ⟨branch, execution⟩ List.mem_cons_self
      obtain ⟨path, holds⟩ := settled.exists_holdsAt here
      exact ⟨⟨branch, execution⟩, List.mem_cons_self, path, holds⟩
    · have others := fun t mem => each t (List.mem_cons_of_mem _ mem)
      obtain ⟨t, mem, path, holds⟩ := exists_holdsAt_of_thread others later
      exact ⟨t, List.mem_cons_of_mem _ mem, path, holds⟩

end

namespace Run

variable {Good : InMemory → Prop} {r : Run InMemory}

/-- A wait that the run is in holds reminders back. -/
def HoldsBack (r : Run InMemory) : Prop :=
  ∃ path x b s, r.root.thread? path = some x ∧ x.isRunning = true ∧ x.current? = some b ∧
    b.activity = .sleep s ∧ s.token.isSome = true

theorem holdsBack_iff (sound : r.Sound Good) (rests : r.root.Rests) :
    r.HoldsBack ↔ r.root.sleepTokens ≠ [] := by
  constructor
  · rintro ⟨path, x, b, s, found, -, now, activity, held⟩
    obtain ⟨token, held⟩ := Option.isSome_iff_exists.mp held
    have holds : r.root.HoldsAt path token := ⟨x, b, s, found, now, activity, held⟩
    exact List.ne_nil_of_mem holds.token_mem
  · intro some_token
    obtain ⟨token, mem⟩ := List.exists_mem_of_ne_nil _ some_token
    have running : r.root.isRunning = true := by
      cases running : r.root.isRunning with
      | true => rfl
      | false => exact absurd (rests.sleepTokens_idle running) some_token
    have settled := sound.settled running
    obtain ⟨path, x, b, s, found, now, activity, held⟩ := settled.exists_holdsAt mem
    refine ⟨path, x, b, s, found, (settled.thread? found).isRunning, now, activity, ?_⟩
    rw [held]
    rfl

variable {given kept : List Nat}

theorem requestPause_accounted (sound : r.Sound InMemory.Willing)
    (accounted : r.Accounted InMemory.reminders ⟨given, kept⟩) :
    ∃ token v, r.requestPause InMemory.services = (.ok token, ⟨r.root, v⟩) ∧
      Sound InMemory.Willing ⟨r.root, v⟩ ∧
      Accounted InMemory.reminders ⟨token :: given, token :: kept⟩ ⟨r.root, v⟩ ∧
      Adds (Entry.IsProgress (fun _ => True) False) r.world.journal v.journal := by
  obtain ⟨token, v, requested, good⟩ := World.requestPause_ok InMemory.reliable.calm sound.good
  have called : r.requestPause InMemory.services = (.ok token, ⟨r.root, v⟩) := by
    simp only [requestPause, requested]
    rfl
  have accounted' : (r.perform InMemory.services .requestPause).Accounted InMemory.reminders
      (Handed.perform InMemory.services ⟨given, kept⟩ r .requestPause) :=
    accounted_perform InMemory.reliable InMemory.keepsBook sound trivial accounted
  have adds : Adds (Entry.IsProgress (fun _ => True) False) r.world.journal
      (r.world.requestPause InMemory.services).2.journal := r.world.requestPause_adds
  simp only [perform, Handed.perform, called] at accounted'
  rw [requested] at adds
  exact ⟨token, v, called, ⟨good, sound.hooks, sound.state⟩, accounted', adds⟩

/-- A token that was given out is given back. -/
theorem releasePause_accounted {token : Nat} (sound : r.Sound InMemory.Willing)
    (was_given : token ∈ given)
    (accounted : r.Accounted InMemory.reminders ⟨given, token :: kept⟩) :
    ∃ v, r.releasePause InMemory.services token = (.ok (), ⟨r.root, v⟩) ∧
      Sound InMemory.Willing ⟨r.root, v⟩ ∧
      Accounted InMemory.reminders ⟨given, kept⟩ ⟨r.root, v⟩ ∧
      Adds (Entry.IsParting fun _ => True) r.world.journal v.journal := by
  obtain ⟨v, released, good⟩ := World.releasePause_ok InMemory.reliable.calm token sound.good
  have called : r.releasePause InMemory.services token = (.ok (), ⟨r.root, v⟩) := by
    simp only [releasePause, released]
    rfl
  have accounted' : (r.perform InMemory.services (.releasePause token)).Accounted
      InMemory.reminders
      (Handed.perform InMemory.services ⟨given, token :: kept⟩ r (.releasePause token)) :=
    accounted_perform InMemory.reliable InMemory.keepsBook sound (Or.inl was_given) accounted
  have adds : Adds (Entry.IsParting fun _ => True) r.world.journal
      (r.world.releasePause InMemory.services token).2.journal := World.releasePause_adds token _
  simp only [perform, Handed.perform, List.erase_cons_head, called] at accounted'
  rw [released] at adds
  exact ⟨v, called, ⟨good, sound.hooks, sound.state⟩, accounted', adds⟩

end Run

namespace Session

variable {o : Options} {s : Session}

/-- What every command keeps of a session with these options. -/
structure Disciplined (o : Options) (s : Session) : Prop where
  options : s.options = o
  sound : s.run.Sound InMemory.Willing
  accounted : ∃ given, (∀ token ∈ s.tokens, token ∈ given) ∧
    s.run.Accounted InMemory.reminders ⟨given, s.tokens⟩
  unforced : ∀ entry ∈ s.run.world.journal,
    entry.IsProgress (fun _ => True) (o.skipSleep = true)

/-- A session whose run has been called, and which keeps these tokens then. -/
theorem Disciplined.of_run (disciplined : s.Disciplined o) {run : Run InMemory}
    {tokens given : List Nat} (sound : run.Sound InMemory.Willing)
    (own : ∀ token ∈ tokens, token ∈ given)
    (accounted : run.Accounted InMemory.reminders ⟨given, tokens⟩)
    (adds : Adds (Entry.IsProgress (fun _ => True) (o.skipSleep = true))
      s.run.world.journal run.world.journal) (timeline : Timeline) :
    Disciplined o { s with run, tokens, timeline } :=
  ⟨disciplined.options, sound, ⟨given, own, accounted⟩, adds.all disciplined.unforced⟩

/-- The session is disciplined after the turn, which was answered: it goes on unless it was told to
quit or its run has finished. -/
structure Obeys (o : Options) (quits : Bool) (turn : Turn) : Prop where
  disciplined : turn.session.Disciplined o
  result : turn.result = .ok (!quits && !turn.session.run.root.finished)

theorem Disciplined.obeys_turn (disciplined : s.Disciplined o) (output : List Output) :
    Obeys o false (s.turn output (.ok ())) :=
  ⟨disciplined, rfl⟩

theorem Disciplined.obeys_passOver (disciplined : s.Disciplined o)
    (unfinished : s.run.root.finished = false) (output : List Output) :
    Obeys o false (s.passOver output) := by
  refine ⟨disciplined, ?_⟩
  simp only [passOver, unfinished, Bool.not_false, Bool.and_self]

/-- A call of the run that is answered. -/
theorem Disciplined.obeys_call (disciplined : s.Disciplined o)
    {called : Except RunError Unit × Run InMemory} (answered : called.1 = .ok ())
    (sound : called.2.Sound InMemory.Willing) {given : List Nat}
    (own : ∀ token ∈ s.tokens, token ∈ given)
    (accounted : called.2.Accounted InMemory.reminders ⟨given, s.tokens⟩)
    (adds : Adds (Entry.IsProgress (fun _ => True) (o.skipSleep = true))
      s.run.world.journal called.2.world.journal) (now : Int) : Obeys o false (s.call now called) := by
  obtain ⟨answer, run⟩ := called
  cases answered
  exact (disciplined.of_run sound own accounted adds _).obeys_turn _

theorem disciplined_ofWorkflow (o : Options) (paint : Paint) (w : Workflow) :
    (ofWorkflow o paint w).Disciplined o where
  options := rfl
  sound := by
    apply (Run.fresh_ofWorkflow w InMemory.empty).sound _ InMemory.willing_empty
    intro b mem
    obtain ⟨t, -, rfl⟩ := List.mem_map.mp mem
    exact HostBlock.succeeds_plain t
  accounted := ⟨[], nofun, (Run.assembled_ofWorkflow w InMemory.empty).accounted rfl⟩
  unforced entry mem := by
    have making := (Run.assembled_ofWorkflow w InMemory.empty).journal entry mem
    cases entry with
    | built | opened => trivial
    | _ => exact making.elim

theorem obeys_start (o : Options) (paint : Paint) (w : Workflow) (now : Int) :
    Obeys o false ((ofWorkflow o paint w).start now) := by
  have disciplined := disciplined_ofWorkflow o paint w
  obtain ⟨given, own, accounted⟩ := disciplined.accounted
  have answered : ((ofWorkflow o paint w).run.start services).1 = .ok () := by
    obtain ⟨e, v, begun⟩ := disciplined.sound.begin_answered InMemory.reliable rfl
    simp only [Run.start, services, begun]
    rfl
  have called : Obeys o false
      ((ofWorkflow o paint w).call now ((ofWorkflow o paint w).run.start services)) := by
    apply disciplined.obeys_call answered _ own _ _ now
    · exact Run.sound_start InMemory.reliable disciplined.sound
    · have honest : Handed.Honest ⟨given, []⟩ (ofWorkflow o paint w).run .start := trivial
      exact Run.accounted_perform InMemory.reliable InMemory.keepsBook disciplined.sound honest
        accounted
    · exact (Run.start_adds _).mono fun _ progress => progress.mono (fun _ => id) False.elim
  constructor
  · rw [session_start]
    exact called.disciplined
  · rw [session_start, ← called.result]
    unfold start
    simp only
    split
    · rfl
    · rfl

/-- An event, which may be the end of the running countdown. -/
theorem Disciplined.obeys_dispatch (disciplined : s.Disciplined o) {run : Run InMemory}
    (sound : run.Sound InMemory.Willing) {given : List Nat}
    (own : ∀ token ∈ s.tokens, token ∈ given)
    (accounted : run.Accounted InMemory.reminders ⟨given, s.tokens⟩)
    (journal : run.world.journal = s.run.world.journal) (path : List Nat) {event : Event}
    (allowed : event = .skip → o.skipSleep = true) (now : Int) :
    Obeys o false (s.call now (run.dispatch services path event)) := by
  have answered : (run.dispatch services path event).1 = .ok () := by
    obtain ⟨e, v, delivered⟩ := sound.dispatch_answered InMemory.reliable path event
    simp only [Run.dispatch, services, delivered]
    rfl
  apply disciplined.obeys_call answered _ own _ _ now
  · exact Run.sound_dispatch InMemory.reliable sound path event
  · have honest : Handed.Honest ⟨given, s.tokens⟩ run (.dispatch path event) := trivial
    exact Run.accounted_perform InMemory.reliable InMemory.keepsBook sound honest accounted
  · rw [← journal]
    exact (run.dispatch_adds path event).mono fun _ progress => progress.mono (fun _ => id) allowed

theorem Disciplined.obeys_wait (disciplined : s.Disciplined o)
    (unfinished : s.run.root.finished = false) (now : Int) : Obeys o false (s.wait now) := by
  cases running : s.run.world.host.route with
  | none =>
    have none : s.wait now = s.passOver [.warning "No countdown is running"] := by
      rw [InMemory.route] at running
      simp only [wait, CountdownBoard.elapse, running]
    rw [none]
    exact disciplined.obeys_passOver unfinished _
  | some path =>
    have elapsed : s.wait now = s.call now (s.run.elapse.dispatch services path .elapsed) := by
      rw [InMemory.route] at running
      simp only [wait, CountdownBoard.elapse, running]
      rfl
    obtain ⟨given, own, accounts, rests⟩ := disciplined.accounted
    have sound : s.run.elapse.Sound InMemory.Willing :=
      ⟨⟨disciplined.sound.good.reminders, disciplined.sound.good.countdown⟩,
        disciplined.sound.hooks, disciplined.sound.state⟩
    have accounted : s.run.elapse.Accounted InMemory.reminders ⟨given, s.tokens⟩ :=
      ⟨⟨⟨accounts.steady.paused, accounts.steady.calls⟩, accounts.ledger⟩, rests⟩
    rw [elapsed]
    apply disciplined.obeys_dispatch sound own accounted rfl path _ now
    rintro ⟨⟩

theorem Disciplined.obeys_pause (disciplined : s.Disciplined o) : Obeys o false s.pause := by
  obtain ⟨given, own, accounted⟩ := disciplined.accounted
  obtain ⟨token, v, called, sound, accounted', adds⟩ :=
    Run.requestPause_accounted disciplined.sound accounted
  simp only [pause, services, called]
  apply Disciplined.obeys_turn
  apply disciplined.of_run sound _ accounted' _
  · intro t mem
    rcases List.mem_cons.mp mem with rfl | old
    · exact List.mem_cons_self
    · exact List.mem_cons_of_mem token (own t old)
  · exact adds.mono fun _ progress => progress.mono (fun _ => id) False.elim

theorem Disciplined.obeys_resume (disciplined : s.Disciplined o) : Obeys o false s.resume := by
  obtain ⟨given, own, accounted⟩ := disciplined.accounted
  unfold resume
  cases tokens : s.tokens with
  | nil => exact disciplined.obeys_turn _
  | cons token rest =>
    rw [tokens] at own accounted
    obtain ⟨v, called, sound, accounted', adds⟩ :=
      Run.releasePause_accounted disciplined.sound (own token List.mem_cons_self) accounted
    simp only [services, called]
    apply Disciplined.obeys_turn
    apply disciplined.of_run sound _ accounted' adds.progress
    exact fun t mem => own t (List.mem_cons_of_mem token mem)

theorem Disciplined.obeys_apply (disciplined : s.Disciplined o)
    (unfinished : s.run.root.finished = false) (command : Command) (now : Int) :
    Obeys o (command = .quit) (s.apply command now) := by
  cases command with
  | event path event =>
    by_cases refused : event = .skip ∧ (!s.options.skipSleep) = true
    · simp only [apply, if_pos refused]
      exact disciplined.obeys_passOver unfinished _
    · have allowed : event = .skip → o.skipSleep = true := by
        intro skips
        rw [disciplined.options] at refused
        simpa [skips] using refused
      obtain ⟨given, own, accounted⟩ := disciplined.accounted
      simp only [apply, if_neg refused]
      exact disciplined.obeys_dispatch disciplined.sound own accounted rfl path allowed now
  | wait => exact disciplined.obeys_wait unfinished now
  | pause => exact disciplined.obeys_pause
  | resume => exact disciplined.obeys_resume
  | status => exact disciplined.obeys_turn _
  | help => exact disciplined.obeys_passOver unfinished _
  | quit => exact ⟨disciplined, rfl⟩

end Session

/-- The last turn of a session that takes commands as long as it goes on. -/
def Turn.lead (turn : Turn) : List (Command × Int) → Turn
  | [] => turn
  | (command, now) :: commands =>
    match turn.result with
    | .ok true => (turn.session.apply command now).lead commands
    | _ => turn

/-- Giving back what it has makes no request for a pause. -/
theorem Adds.pauseRequestsIn {place : List Nat → Prop} {first second : List Entry}
    (adds : Adds (Entry.IsParting place) first second) :
    Stepwise.pauseRequestsIn second = Stepwise.pauseRequestsIn first := by
  obtain ⟨new, rfl, each⟩ := adds
  have none : new.countP Entry.isPauseRequest = 0 := by
    rw [List.countP_eq_zero]
    intro entry mem
    have parting := each entry mem
    cases entry with
    | pauseRequested token => exact parting.elim
    | _ => exact Bool.false_ne_true
  rw [Stepwise.pauseRequestsIn, List.countP_append, none, Nat.zero_add]
  rfl

namespace Session

variable {o : Options} {s : Session}

theorem Obeys.unfinished {quits : Bool} {turn : Turn} (obeys : Obeys o quits turn)
    (goes_on : turn.result = .ok true) : turn.session.run.root.finished = false := by
  have result := obeys.result
  rw [goes_on] at result
  have both := (Except.ok.inj result).symm
  simp only [Bool.and_eq_true, Bool.not_eq_true'] at both
  exact both.2

theorem Obeys.lead {quits : Bool} {turn : Turn} (obeys : Obeys o quits turn)
    (commands : List (Command × Int)) : ∃ quits, Obeys o quits (turn.lead commands) := by
  induction commands generalizing turn quits with
  | nil => exact ⟨quits, obeys⟩
  | cons c commands ih =>
    obtain ⟨command, now⟩ := c
    unfold Turn.lead
    split
    · next goes_on =>
      have unfinished := obeys.unfinished goes_on
      exact ih (obeys.disciplined.obeys_apply unfinished command now)
    · exact ⟨quits, obeys⟩

/-- All tokens of the session are given back, and then reminders are held back by waits alone. -/
theorem releaseAll_accounted {r : Run InMemory} {given tokens : List Nat}
    (sound : r.Sound InMemory.Willing) (own : ∀ token ∈ tokens, token ∈ given)
    (accounted : r.Accounted InMemory.reminders ⟨given, tokens⟩) :
    ∃ v, releaseAll tokens r = (.ok (), [], ⟨r.root, v⟩) ∧
      Run.Accounted InMemory.reminders ⟨given, []⟩ ⟨r.root, v⟩ ∧
      Adds (Entry.IsParting fun _ => True) r.world.journal v.journal := by
  induction tokens generalizing r with
  | nil => exact ⟨r.world, rfl, accounted, .refl _ _⟩
  | cons token rest ih =>
    obtain ⟨v, called, sound', accounted', adds⟩ :=
      Run.releasePause_accounted sound (own token List.mem_cons_self) accounted
    obtain ⟨u, released, accounted'', adds'⟩ :=
      ih sound' (fun t mem => own t (List.mem_cons_of_mem token mem)) accounted'
    refine ⟨u, ?_, accounted'', adds.trans adds'⟩
    simp only [releaseAll, services, called]
    exact released

/-- How a session ends when all that it has is taken back. -/
theorem finish_of_releaseAll {run : Run InMemory}
    (released : releaseAll s.tokens s.run = (.ok (), [], run)) :
    s.finish.result = .ok () ∧ s.finish.session = { s with run, tokens := [] } := by
  simp only [finish, released, and_self]

/-- However a session of a workflow is carried on, every turn is answered, and the next command ends
it just if that is to quit or if the run has finished after it. Without the permission to skip waits
no countdown was ended early. Unless there were too many requests, the tokens that the session keeps
are outstanding and none of them is a wait's; and once the session has ended reminders are paused
just if a wait that the run is in holds a token. -/
theorem commands_disciplined (o : Options) (paint : Paint) (w : Workflow) (now : Int)
    (commands : List (Command × Int)) :
    let turn := ((ofWorkflow o paint w).start now).lead commands
    let s := turn.session
    (∃ goes, turn.result = .ok goes ∧ (goes = true → s.run.root.finished = false)) ∧
    (turn.result = .ok true → ∀ command later,
      ∃ goes, (s.apply command later).result = .ok goes ∧
        (goes = false ↔
          command = .quit ∨ (s.apply command later).session.run.root.finished = true)) ∧
    (o.skipSleep = false → ∀ answer, .asked .forceFinish answer ∉ s.run.world.journal) ∧
    (pauseRequestsIn s.run.world.journal < PauseRequests.tokenCount →
      s.tokens.Nodup ∧
      (∀ token ∈ s.tokens,
        token ∈ s.run.world.pause.outstanding ∧ token ∉ s.run.root.sleepTokens) ∧
      s.finish.result = .ok () ∧ s.finish.session.tokens = [] ∧
      s.finish.session.run.root = s.run.root ∧
      (s.finish.session.run.world.host.reminders.paused = true ↔
        s.finish.session.run.HoldsBack)) := by
  intro turn s
  obtain ⟨quits, obeys⟩ := (obeys_start o paint w now).lead commands
  have disciplined : s.Disciplined o := obeys.disciplined
  refine ⟨⟨_, obeys.result, ?_⟩, ?_, ?_, ?_⟩
  · intro goes_on
    simp only [Bool.and_eq_true, Bool.not_eq_true'] at goes_on
    exact goes_on.2
  · intro goes_on command later
    have next := disciplined.obeys_apply (obeys.unfinished goes_on) command later
    refine ⟨_, next.result, ?_⟩
    cases command with
    | quit => simp
    | _ => simp
  · intro unskippable answer mem
    have skippable : o.skipSleep = true := disciplined.unforced _ mem
    exact Bool.false_ne_true (unskippable.symm.trans skippable)
  · intro few
    obtain ⟨given, own, accounted⟩ := disciplined.accounted
    obtain ⟨-, balanced⟩ := accounted.accounts.ledger few
    obtain ⟨v, released, accounted', adds⟩ :=
      releaseAll_accounted disciplined.sound own accounted
    have distinct := balanced.shared.nodup_iff.mp balanced.distinct
    obtain ⟨kept_distinct, -, apart⟩ := List.nodup_append.mp distinct
    have few' : pauseRequestsIn v.journal < PauseRequests.tokenCount := by
      rw [adds.pauseRequestsIn]
      exact few
    obtain ⟨-, balanced'⟩ := accounted'.accounts.ledger few'
    obtain ⟨answered, ended⟩ := finish_of_releaseAll released
    rw [ended]
    refine ⟨kept_distinct, ?_, answered, rfl, rfl, ?_⟩
    · intro token mem
      constructor
      · exact balanced.shared.mem_iff.mpr (List.mem_append_left _ mem)
      · intro asleep
        exact apart token mem token asleep rfl
    · have sound' : Run.Sound (fun _ : InMemory => True) ⟨s.run.root, v⟩ :=
        ⟨trivial, disciplined.sound.hooks, disciplined.sound.state⟩
      rw [accounted'.accounts.steady.paused, Run.holdsBack_iff sound' accounted'.rests]
      rw [PauseRequests.isPaused, balanced'.shared.isEmpty_eq, List.nil_append]
      simp

/-- A group of which one thread waits silently. -/
def callOrHold : Workflow :=
  ⟨"hotline", none, none, [.parallel "either" 1
    [[.task "call"], [.sleep 30 .seconds "hold" true]], .task "next"]⟩

/-- Of the tokens of two pauses the latest one is given back, and the other one at the end, when the
silent wait still holds reminders back. The wait was not skipped. -/
theorem commands_disciplined_callOrHold :
    let turn := ((ofWorkflow .default .none callOrHold).start 0).lead
      [(.pause, 1), (.event [1] .skip, 2), (.pause, 3), (.resume, 4)]
    let s := turn.session
    (turn.result = .ok true ∧ Options.default.skipSleep = false ∧ s.tokens = [1] ∧
      s.run.root.sleepTokens = [0] ∧
      pauseRequestsIn s.run.world.journal < PauseRequests.tokenCount ∧
      (s.apply (.event [0] .done) 5).session.run.root.finished = false ∧
      s.finish.session.run.world.host.reminders.paused = true) ∧
    (∃ goes, turn.result = .ok goes ∧ (goes = true → s.run.root.finished = false)) ∧
    (∀ command later, ∃ goes, (s.apply command later).result = .ok goes ∧
      (goes = false ↔
        command = .quit ∨ (s.apply command later).session.run.root.finished = true)) ∧
    (∀ answer, .asked .forceFinish answer ∉ s.run.world.journal) ∧
    s.tokens.Nodup ∧
    (∀ token ∈ s.tokens,
      token ∈ s.run.world.pause.outstanding ∧ token ∉ s.run.root.sleepTokens) ∧
    s.finish.result = .ok () ∧ s.finish.session.tokens = [] ∧
    s.finish.session.run.root = s.run.root ∧
    (s.finish.session.run.world.host.reminders.paused = true ↔
      s.finish.session.run.HoldsBack) := by
  intro turn s
  have goes_on : turn.result = .ok true := by decide +kernel
  have few : pauseRequestsIn s.run.world.journal < PauseRequests.tokenCount := by decide +kernel
  obtain ⟨answered, next, unforced, tokens⟩ := commands_disciplined .default .none callOrHold 0
    [(.pause, 1), (.event [1] .skip, 2), (.pause, 3), (.resume, 4)]
  refine ⟨⟨goes_on, rfl, ?_, ?_, few, ?_, ?_⟩, answered, next goes_on, unforced rfl, tokens few⟩
  · decide +kernel
  · decide +kernel
  · decide +kernel
  · decide +kernel

end Session

end Stepwise
