import Stepwise.Execution.Cancelling
import Stepwise.Services.InMemory
import Stepwise.Proofs.Plan

/-!
# Reliable hosts

A host is reliable while no request of a run fails. A set of host states says for how long: from
each of them every request is granted and leads to one of them. With a reliable host and callbacks
that succeed, every way to leave a block ends with an answer, and what is left of the block does not
depend on the host.
-/

namespace Stepwise

variable {σ : Type} {Good : σ → Prop}

/-- The call is answered, and the host stays in the set. -/
def Grants {α : Type} (Good : σ → Prop) (call : σ → Except ServiceError α × σ) : Prop :=
  ∀ h, Good h → ∃ a h', call h = (.ok a, h') ∧ Good h'

/-- The call is answered, and the host goes from the one set to the other. -/
def Leads {α : Type} (Good Good' : σ → Prop) (call : σ → Except ServiceError α × σ) : Prop :=
  ∀ h, Good h → ∃ a h', call h = (.ok a, h') ∧ Good' h'

structure Services.Reliable (services : Services σ) (Good : σ → Prop) : Prop where
  addReminder : ∀ label r, Grants Good (services.addReminder label r)
  removeReminder : ∀ id, Grants Good (services.removeReminder id)
  setPaused : ∀ paused, Grants Good (services.setPaused paused)
  startCountdown : ∀ value unit route, Grants Good (services.startCountdown value unit route)
  forceFinish : Grants Good services.forceFinish
  cancelCountdown : ∀ route, Grants Good (services.cancelCountdown route)

/-- The requests that are not about the countdown are granted. -/
structure Services.Calm (services : Services σ) (Good : σ → Prop) : Prop where
  addReminder : ∀ label r, Grants Good (services.addReminder label r)
  removeReminder : ∀ id, Grants Good (services.removeReminder id)
  setPaused : ∀ paused, Grants Good (services.setPaused paused)

/-- So are those to cancel the countdown of a route in the place. -/
structure Services.Cancels (services : Services σ) (Good : σ → Prop) (place : List Nat → Prop) :
    Prop extends services.Calm Good where
  cancelCountdown : ∀ route, place route → Grants Good (services.cancelCountdown route)

theorem Services.Calm.cancelsNone {services : Services σ} (calm : services.Calm Good) :
    services.Cancels Good fun _ => False :=
  ⟨calm, nofun⟩

theorem Services.Reliable.calm {services : Services σ} (reliable : services.Reliable Good) :
    services.Calm Good :=
  ⟨reliable.addReminder, reliable.removeReminder, reliable.setPaused⟩

theorem Services.Reliable.cancels {services : Services σ} (reliable : services.Reliable Good)
    (place : List Nat → Prop) : services.Cancels Good place :=
  ⟨reliable.calm, fun route _ => reliable.cancelCountdown route⟩

namespace ReminderBook

def Willing (b : ReminderBook) : Prop := b.failing = false

theorem grants_add (label : String) (r : Reminder) : Grants Willing (add label r) := by
  intro b willing
  refine ⟨b.lastId + 1, _, if_neg ?_, willing⟩
  rw [willing]
  exact Bool.false_ne_true

theorem grants_remove (id : Nat) : Grants Willing (remove id) := by
  intro b willing
  have unrefused : ¬ b.failing = true := by
    rw [willing]
    exact Bool.false_ne_true
  unfold remove
  rw [if_neg unrefused]
  split
  · exact ⟨(), _, rfl, willing⟩
  · exact ⟨(), _, rfl, willing⟩

theorem grants_setPaused (paused : Bool) : Grants Willing (setPaused paused) := by
  intro b willing
  have unrefused : ¬ b.failing = true := by
    rw [willing]
    exact Bool.false_ne_true
  unfold setPaused
  rw [if_neg unrefused]
  split
  · exact ⟨(), _, rfl, willing⟩
  · exact ⟨(), _, rfl, willing⟩

end ReminderBook

/-- Neither service refuses. -/
structure InMemory.Willing (m : InMemory) : Prop where
  reminders : m.reminders.Willing
  countdown : m.countdown.failing = false

namespace InMemory

theorem grants_onReminders {α : Type} {call : ReminderBook → Except ServiceError α × ReminderBook}
    (grants : Grants ReminderBook.Willing call) : Grants Willing (onReminders call) := by
  intro m willing
  obtain ⟨a, b, called, still⟩ := grants m.reminders willing.reminders
  exact ⟨a, { m with reminders := b }, by simp only [onReminders, called], still, willing.countdown⟩

theorem grants_onCountdown (next : CountdownBoard → CountdownBoard)
    (keeps : ∀ b, (next b).failing = b.failing) :
    Grants Willing (onCountdown fun b => b.answer (next b)) := by
  intro m willing
  refine ⟨(), { m with countdown := next m.countdown }, ?_, willing.reminders, ?_⟩
  · simp only [onCountdown, CountdownBoard.answer, willing.countdown]
    rfl
  · exact (keeps m.countdown).trans willing.countdown

/-- Services in memory that were not switched to refuse. -/
theorem reliable : services.Reliable Willing where
  addReminder label r := grants_onReminders (ReminderBook.grants_add label r)
  removeReminder id := grants_onReminders (ReminderBook.grants_remove id)
  setPaused paused := grants_onReminders (ReminderBook.grants_setPaused paused)
  startCountdown value unit route := grants_onCountdown
    (fun b => { b with running := some ⟨unit.toSeconds value, route⟩, started := b.started + 1 })
    fun _ => rfl
  forceFinish := grants_onCountdown
    (fun b => { b with running := none, forced := b.forced + 1 }) fun _ => rfl
  cancelCountdown route := grants_onCountdown
    (fun b => { b with running := b.running.filter (·.route ≠ route) }) fun _ => rfl

theorem willing_empty : Willing empty := ⟨rfl, rfl⟩

end InMemory

def LeaveHook.Succeeds : LeaveHook → Prop
  | .removeReminder _ => True
  | .custom _ failure => failure = none

def Block.HooksSucceed (b : Block) : Prop := ∀ hook ∈ b.hooks, hook.Succeeds

mutual

/-- No hook fails that is still to be run. -/
def Execution.HooksSucceed : Execution → Prop
  | ⟨line, threads⟩ => (∀ b ∈ line.ahead, b.HooksSucceed) ∧ hooksSucceed threads

def hooksSucceed : List Thread → Prop
  | [] => True
  | ⟨_, execution⟩ :: rest => execution.HooksSucceed ∧ hooksSucceed rest

end

instance : DecidablePred LeaveHook.Succeeds
  | .removeReminder _ => isTrue trivial
  | .custom _ failure => inferInstanceAs (Decidable (failure = none))

instance (b : Block) : Decidable b.HooksSucceed :=
  inferInstanceAs (Decidable (∀ hook ∈ b.hooks, hook.Succeeds))

mutual

def Execution.decHooksSucceed : (e : Execution) → Decidable e.HooksSucceed
  | ⟨line, threads⟩ =>
    match decHooksSucceed threads with
    | isTrue inside =>
      if here : ∀ b ∈ line.ahead, b.HooksSucceed then isTrue ⟨here, inside⟩
      else isFalse fun h => here h.1
    | isFalse outside => isFalse fun h => outside h.2

def decHooksSucceed : (threads : List Thread) → Decidable (hooksSucceed threads)
  | [] => isTrue trivial
  | ⟨_, execution⟩ :: rest =>
    match execution.decHooksSucceed, decHooksSucceed rest with
    | isTrue here, isTrue others => isTrue ⟨here, others⟩
    | isFalse here, _ => isFalse fun h => here h.1
    | _, isFalse others => isFalse fun h => others h.2

end

instance : DecidablePred Execution.HooksSucceed := Execution.decHooksSucceed

theorem hooksSucceed_forall (threads : List Thread) :
    hooksSucceed threads ↔ ∀ t ∈ threads, t.execution.HooksSucceed := by
  induction threads with
  | nil => simp [hooksSucceed]
  | cons t rest ih =>
    obtain ⟨branch, execution⟩ := t
    simp [hooksSucceed, ih]

theorem hooksSucceed_cons (t : Thread) (rest : List Thread) :
    hooksSucceed (t :: rest) ↔ t.execution.HooksSucceed ∧ hooksSucceed rest := by
  obtain ⟨branch, execution⟩ := t
  rw [hooksSucceed]

theorem Execution.hooksSucceed_iff (e : Execution) :
    e.HooksSucceed ↔ (∀ b ∈ e.ahead, b.HooksSucceed) ∧ hooksSucceed e.threads := by
  obtain ⟨line, threads⟩ := e
  rw [Execution.HooksSucceed]

theorem Block.hooksSucceed_ofTemplate (t : Template) : (ofTemplate t).HooksSucceed := by
  intro hook h
  rw [hooks_ofTemplate] at h
  cases h

theorem Block.hooksSucceed_ofTemplates (ts : List Template) :
    ∀ c ∈ ts.map ofTemplate, c.HooksSucceed := by
  intro c h
  obtain ⟨t, -, rfl⟩ := List.mem_map.mp h
  exact hooksSucceed_ofTemplate t

namespace World

theorem ask_leads {Good' : σ → Prop} {call : σ → Except ServiceError Unit × σ}
    (leads : Leads Good Good' call) (request : Request) {w : World σ} (good : Good w.host) :
    ∃ w', w.ask request call = (.ok (), w') ∧ Good' w'.host := by
  obtain ⟨⟨⟩, h', called, good'⟩ := leads w.host good
  refine ⟨⟨h', w.pause, .asked request (.ok ()) :: w.journal⟩, ?_, good'⟩
  simp only [ask, called]

theorem ask_ok {call : σ → Except ServiceError Unit × σ} (grants : Grants Good call)
    (request : Request) {w : World σ} (good : Good w.host) :
    ∃ w', w.ask request call = (.ok (), w') ∧ Good w'.host :=
  ask_leads grants request good

@[simp]
theorem host_noteOpened (branches : List (List Template)) (w : World σ) :
    (w.noteOpened branches).host = w.host := by
  induction branches generalizing w with
  | nil => rfl
  | cons templates rest ih => exact ih (noteBuilt templates (w.note (.opened none none)))

variable {services : Services σ} (calm : services.Calm Good)
include calm

theorem addReminder_ok (label : String) (r : Reminder) {w : World σ} (good : Good w.host) :
    ∃ id w', w.addReminder services label r = (.ok id, w') ∧ Good w'.host := by
  obtain ⟨id, h', called, good'⟩ := calm.addReminder label r w.host good
  refine ⟨id, ⟨h', w.pause, .added label r (.ok id) :: w.journal⟩, ?_, good'⟩
  simp only [addReminder, called]

theorem removeReminder_ok (id : Nat) {w : World σ} (good : Good w.host) :
    ∃ w', w.removeReminder services id = (.ok (), w') ∧ Good w'.host :=
  ask_ok (calm.removeReminder id) _ good

theorem requestPause_ok {w : World σ} (good : Good w.host) :
    ∃ token w', w.requestPause services = (.ok token, w') ∧ Good w'.host := by
  obtain ⟨host, pause, journal⟩ := w
  obtain ⟨w', asked, good'⟩ := ask_ok (calm.setPaused true) (.setPaused true)
    (w := note ⟨host, pause, journal⟩ (.pauseRequested pause.next)) good
  unfold requestPause PauseRequests.request setPaused
  by_cases paused : pause.isPaused
  · simp only [paused, if_true]
    exact ⟨_, _, rfl, good⟩
  · simp only [paused, asked]
    exact ⟨_, _, rfl, good'⟩

theorem releasePause_ok (token : Nat) {w : World σ} (good : Good w.host) :
    ∃ w', w.releasePause services token = (.ok (), w') ∧ Good w'.host := by
  obtain ⟨host, pause, journal⟩ := w
  obtain ⟨w', asked, good'⟩ :=
    ask_ok (calm.setPaused false) (.setPaused false) (w := ⟨host, pause, journal⟩) good
  unfold releasePause PauseRequests.release setPaused
  by_cases held : token ∈ pause.outstanding
  · simp only [held, if_true]
    split
    · exact ⟨_, rfl, good⟩
    · simp only [asked]
      exact ⟨_, rfl, good'⟩
  · simp only [held, if_false]
    exact ⟨_, rfl, good⟩

end World

/-- The countdown that runs for the block, if one does, is that of a route in the place. -/
def Block.CountsIn (place : List Nat → Prop) (b : Block) : Prop :=
  ∀ s, b.activity = .sleep s → s.isRunning = true → place s.route

mutual

/-- The countdowns that run for the execution and for its threads are all in the place. -/
def Execution.CountsIn (place : List Nat → Prop) : Execution → Prop
  | ⟨line, threads⟩ =>
    (∀ b, line.current? = some b → b.CountsIn place) ∧ allCountIn place threads

def allCountIn (place : List Nat → Prop) : List Thread → Prop
  | [] => True
  | ⟨_, execution⟩ :: rest => execution.CountsIn place ∧ allCountIn place rest

end

section Places

variable {place : List Nat → Prop}

mutual

theorem Execution.countsIn_all (all : ∀ route, place route) : ∀ e : Execution, e.CountsIn place
  | ⟨_, threads⟩ => ⟨fun _ _ s _ _ => all s.route, allCountIn_all all threads⟩

theorem allCountIn_all (all : ∀ route, place route) :
    ∀ threads : List Thread, allCountIn place threads
  | [] => trivial
  | ⟨_, execution⟩ :: rest => ⟨execution.countsIn_all all, allCountIn_all all rest⟩

end

end Places

section Leaving

variable {services : Services σ}

section Calm

variable (calm : services.Calm Good)
include calm

namespace LeaveHook

theorem run_ok {hook : LeaveHook} (succeeds : hook.Succeeds) {w : World σ} (good : Good w.host) :
    ∃ w', hook.run services w = (.ok (), w') ∧ Good w'.host := by
  cases hook with
  | removeReminder id => exact World.removeReminder_ok calm id good
  | custom name failure =>
    cases succeeds
    exact ⟨_, rfl, good⟩

theorem runAll_ok {hooks : List LeaveHook} (succeed : ∀ hook ∈ hooks, hook.Succeeds)
    {w : World σ} (good : Good w.host) :
    ∃ w', runAll services hooks w = ⟨.ok (), [], w'⟩ ∧ Good w'.host := by
  induction hooks generalizing w with
  | nil => exact ⟨w, rfl, good⟩
  | cons hook rest ih =>
    obtain ⟨w', ran, good'⟩ := run_ok calm (succeed hook List.mem_cons_self) good
    obtain ⟨w'', rest_ran, good''⟩ :=
      ih (fun hook' h => succeed hook' (List.mem_cons_of_mem hook h)) good'
    refine ⟨w'', ?_, good''⟩
    simp only [runAll, ran, rest_ran]

end LeaveHook

theorem Sleep.giveBackToken_ok (s : Sleep) {w : World σ} (good : Good w.host) :
    ∃ w', s.giveBackToken services w = ⟨.ok (), { s with token := none }, w'⟩ ∧
      Good w'.host := by
  obtain ⟨value, unit, silent, remaining, token, route⟩ := s
  cases token with
  | none => exact ⟨w, rfl, good⟩
  | some token =>
    obtain ⟨w', released, good'⟩ := World.releasePause_ok calm token good
    refine ⟨w', ?_, good'⟩
    simp only [giveBackToken, released]

namespace Block

theorem discard_ok {b : Block} (succeed : b.HooksSucceed) {w : World σ} (good : Good w.host) :
    ∃ w', b.discard services w = ⟨.ok (), { b with handle := none, hooks := [] }, w'⟩ ∧
      Good w'.host := by
  obtain ⟨id, image, reminder, handle, hooks, text, activity⟩ := b
  cases handle with
  | none =>
    obtain ⟨w', ran, good'⟩ := LeaveHook.runAll_ok calm succeed good
    refine ⟨w', ?_, good'⟩
    simp only [discard, unregister, Outcome.bind, runHooks, ran, Outcome.within]
  | some number =>
    obtain ⟨w', removed, good'⟩ := World.removeReminder_ok calm number good
    obtain ⟨w'', ran, good''⟩ := LeaveHook.runAll_ok calm succeed good'
    refine ⟨w'', ?_, good''⟩
    simp only [discard, unregister, removed, Outcome.bind, runHooks, ran, Outcome.within]

theorem register_ok (b : Block) {w : World σ} (good : Good w.host) :
    ∃ handle w', b.register services w = (.ok handle, w') ∧ Good w'.host := by
  unfold register
  split
  · next r _ _ =>
    obtain ⟨id, w', added, good'⟩ := World.addReminder_ok calm b.shownText r good
    exact ⟨some id, w', by simp only [added], good'⟩
  · exact ⟨_, w, rfl, good⟩

end Block

theorem discardAll_ok {blocks : List Block} (succeed : ∀ b ∈ blocks, b.HooksSucceed)
    {w : World σ} (good : Good w.host) :
    ∃ left w', discardAll services blocks w = ⟨.ok (), left, w'⟩ ∧ Good w'.host := by
  induction blocks generalizing w with
  | nil => exact ⟨[], w, rfl, good⟩
  | cons b rest ih =>
    obtain ⟨w', discarded, good'⟩ := b.discard_ok calm (succeed b List.mem_cons_self) good
    obtain ⟨left, w'', rest_discarded, good''⟩ :=
      ih (fun c hc => succeed c (List.mem_cons_of_mem b hc)) good'
    refine ⟨{ b with handle := none, hooks := [] } :: left, w'', ?_, good''⟩
    simp only [discardAll, discarded, Outcome.bind, rest_discarded, Outcome.within]

namespace Sequence

theorem unregister_ok (s : Sequence) {w : World σ} (good : Good w.host) :
    ∃ w', s.unregister services w = ⟨.ok (), { s with handle := none }, w'⟩ ∧
      Good w'.host := by
  obtain ⟨behind, ahead, started, finished, cancelled, description, reminder, handle, address,
    pause⟩ := s
  cases handle with
  | none => exact ⟨w, rfl, good⟩
  | some number =>
    obtain ⟨w', removed, good'⟩ := World.removeReminder_ok calm number good
    exact ⟨w', by simp only [unregister, removed], good'⟩

theorem giveUp_ok {s : Sequence} (succeed : ∀ b ∈ s.ahead, b.HooksSucceed) {w : World σ}
    (good : Good w.host) : ∃ s' w', s.giveUp services w = ⟨.ok (), s', w'⟩ ∧ Good w'.host := by
  obtain ⟨left, w', discarded, good'⟩ := discardAll_ok calm succeed good
  obtain ⟨w'', removed, good''⟩ := unregister_ok calm { s with ahead := left } good'
  refine ⟨{ s with ahead := left, handle := none }, w'', ?_, good''⟩
  simp only [giveUp, discarded, Outcome.bind, removed]

end Sequence

end Calm

section Cancelling

variable {place : List Nat → Prop} (cancels : services.Cancels Good place)
include cancels

theorem Sleep.release_within (s : Sleep) (inside : s.isRunning = true → place s.route)
    {w : World σ} (good : Good w.host) :
    ∃ w', s.release services w = ⟨.ok (), s.ended, w'⟩ ∧ Good w'.host := by
  by_cases running : s.isRunning
  · obtain ⟨w', cancelled, good'⟩ := World.ask_ok
      (cancels.cancelCountdown s.route (inside running)) (.cancelCountdown s.route) good
    obtain ⟨w'', given, good''⟩ :=
      giveBackToken_ok cancels.toCalm { s with remaining := .zero } good'
    refine ⟨w'', ?_, good''⟩
    simp only [release, running, if_true, World.cancelCountdown, cancelled, given, ended]
  · obtain ⟨w', given, good'⟩ := giveBackToken_ok cancels.toCalm s good
    refine ⟨w', ?_, good'⟩
    simp only [release, running, given, ended]
    rfl

namespace Block

theorem wrapUp_within {b : Block} (inside : b.CountsIn place) {w : World σ} (good : Good w.host) :
    ∃ w', b.wrapUp services w = ⟨.ok (), { b with activity := b.activity.ended }, w'⟩ ∧
      Good w'.host := by
  obtain ⟨id, image, reminder, handle, hooks, text, activity⟩ := b
  cases activity with
  | sleep s =>
    obtain ⟨w', released, good'⟩ := s.release_within cancels (inside s rfl) good
    refine ⟨w', ?_, good'⟩
    simp only [wrapUp, released, Outcome.within, Activity.ended]
  | _ => exact ⟨w, rfl, good⟩

theorem leave_within {b : Block} (inside : b.CountsIn place) (succeed : b.HooksSucceed)
    {w : World σ} (good : Good w.host) :
    ∃ w', b.leave services w = ⟨.ok (), b.ended, w'⟩ ∧ Good w'.host := by
  obtain ⟨w', wrapped, good'⟩ := wrapUp_within cancels inside good
  obtain ⟨w'', discarded, good''⟩ :=
    discard_ok (b := { b with activity := b.activity.ended }) cancels.toCalm succeed good'
  refine ⟨w'', ?_, good''⟩
  simp only [leave, wrapped, Outcome.bind, discarded, ended]

end Block

theorem Sequence.halt_within {s : Sequence}
    (inside : ∀ b, s.current? = some b → b.CountsIn place)
    (succeed : ∀ b ∈ s.ahead, b.HooksSucceed) {w : World σ} (good : Good w.host) :
    ∃ s' w', s.halt services w = ⟨.ok (), s', w'⟩ ∧ Good w'.host := by
  unfold halt
  split
  · exact giveUp_ok cancels.toCalm succeed good
  · next b rest ahead =>
    have current : s.current? = some b := by rw [current?, ahead, List.head?_cons]
    rw [ahead] at succeed
    obtain ⟨w', left, good'⟩ :=
      b.leave_within cancels (inside b current) (succeed b List.mem_cons_self) good
    simp only [left, Outcome.bind]
    refine giveUp_ok cancels.toCalm (fun c hc => succeed c (List.mem_cons_of_mem b hc)) ?_
    exact good'

end Cancelling

mutual

theorem Execution.cancel_within {place : List Nat → Prop} (cancels : services.Cancels Good place) :
    ∀ {e : Execution}, e.CountsIn place → e.HooksSucceed → ∀ {w : World σ}, Good w.host →
      ∃ e' w', e.cancel services w = ⟨.ok (), e', w'⟩ ∧ Good w'.host
  | ⟨line, threads⟩, inside, succeed, w, good => by
    by_cases running : line.isRunning
    · obtain ⟨w', cancelled, good'⟩ := cancelThreads_within cancels inside.2 succeed.2 good
      obtain ⟨s', w'', halted, good''⟩ := Sequence.halt_within
        (s := { line with cancelled := true }) cancels inside.1 succeed.1 good'
      refine ⟨⟨s', []⟩, w'', ?_, good''⟩
      simp only [Execution.cancel, running, if_true, cancelled, Outcome.bind, halted,
        Outcome.within]
    · exact ⟨⟨line, threads⟩, w, by simp only [Execution.cancel, running]; rfl, good⟩

theorem cancelThreads_within {place : List Nat → Prop} (cancels : services.Cancels Good place) :
    ∀ {threads : List Thread}, allCountIn place threads → hooksSucceed threads →
      ∀ {w : World σ}, Good w.host →
      ∃ w', cancelThreads services threads w = ⟨.ok (), (), w'⟩ ∧ Good w'.host
  | [], _, _, w, good => ⟨w, rfl, good⟩
  | ⟨_, execution⟩ :: rest, inside, succeed, w, good => by
    obtain ⟨e', w', cancelled, good'⟩ :=
      Execution.cancel_within cancels inside.1 succeed.1 good
    obtain ⟨w'', others, good''⟩ := cancelThreads_within cancels inside.2 succeed.2 good'
    refine ⟨w'', ?_, good''⟩
    simp only [cancelThreads, cancelled, Outcome.bind, others]

end

section Reliable

variable (reliable : services.Reliable Good)
include reliable

theorem Block.wrapUp_ok (b : Block) {w : World σ} (good : Good w.host) :
    ∃ w', b.wrapUp services w = ⟨.ok (), { b with activity := b.activity.ended }, w'⟩ ∧
      Good w'.host :=
  wrapUp_within (reliable.cancels fun _ => True) (fun _ _ _ => trivial) good

theorem cancelThreads_ok {threads : List Thread} (succeed : hooksSucceed threads) {w : World σ}
    (good : Good w.host) :
    ∃ w', cancelThreads services threads w = ⟨.ok (), (), w'⟩ ∧ Good w'.host :=
  cancelThreads_within (reliable.cancels fun _ => True) (allCountIn_all (fun _ => trivial) threads)
    succeed good

end Reliable

end Leaving

namespace Join

/-- A group goes on while threads are left and too few have finished. -/
theorem complete_stays (services : Services σ) (j : Join) {others : List Thread}
    (some_left : others ≠ [])
    (few : j.completed + 1 ≠ j.choose) (w : World σ) :
    j.complete services others w =
      ⟨.ok false, ({ j with completed := j.completed + 1 }, others), w⟩ := by
  simp [complete, some_left, few]

theorem complete_ends {j : Join} {others : List Thread} {w w' : World σ}
    (enough : others = [] ∨ j.completed + 1 = j.choose) (undone : j.done = false)
    (cancelled : cancelThreads services others w = ⟨.ok (), (), w'⟩) :
    j.complete services others w =
      ⟨.ok true, ({ j with completed := j.completed + 1, done := true }, []), w'⟩ := by
  have ends : others.isEmpty = true ∨ j.completed + 1 = j.choose := by
    simpa only [List.isEmpty_iff] using enough
  simp only [complete, ends, if_true, cancelled, Outcome.bind, undone]
  rfl

end Join

end Stepwise
