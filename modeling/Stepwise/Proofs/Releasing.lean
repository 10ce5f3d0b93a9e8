import Mathlib.Data.List.Basic
import Stepwise.Proofs.Custody.Leaving
import Stepwise.Proofs.History
import Stepwise.Proofs.Records

/-!
# What a cancelled thread releases

A part of a run has its share of what the host keeps: the reminders that it holds, the pause tokens
of its waits, and the countdowns of those waits that still count. Services in memory that do not
refuse take back a share exactly: what is active, outstanding or running afterwards is what was so
before, less the share. A thread that is cancelled gives back the share of all that is in it, and
nothing of what is around it or beside it.
-/

namespace Stepwise

/-- What a part of a run has from the host: reminders, pause tokens, and countdowns by route. -/
structure Share where
  reminders : List Nat
  tokens : List Nat
  routes : List (List Nat)

namespace Share

def none : Share := ⟨[], [], []⟩

instance : Append Share where
  append a b := ⟨a.reminders ++ b.reminders, a.tokens ++ b.tokens, a.routes ++ b.routes⟩

@[simp]
theorem append_mk (reminders tokens reminders' tokens' : List Nat) (routes routes' : List (List Nat)) :
    (⟨reminders, tokens, routes⟩ : Share) ++ ⟨reminders', tokens', routes'⟩ =
      ⟨reminders ++ reminders', tokens ++ tokens', routes ++ routes'⟩ := rfl

end Share

/-- The second world is the first one without the share, and its host still refuses nothing. -/
structure World.Returned (share : Share) (w v : World InMemory) : Prop where
  active : v.host.reminders.active = w.host.reminders.active.filter (·.1 ∉ share.reminders)
  outstanding : v.pause.outstanding = w.pause.outstanding.diff share.tokens
  running : v.host.countdown.running =
    w.host.countdown.running.filter (·.route ∉ share.routes)
  willing : v.host.Willing

namespace World.Returned

variable {share share' : Share} {w v u : World InMemory}

theorem refl (willing : w.host.Willing) : w.Returned .none w where
  active := by simp [Share.none]
  outstanding := rfl
  running := by cases w.host.countdown.running <;> simp [Share.none, Option.filter]
  willing := willing

theorem trans (first : w.Returned share v) (second : v.Returned share' u) :
    w.Returned (share ++ share') u where
  active := by
    rw [second.active, first.active, List.filter_filter]
    refine List.filter_congr fun entry _ => ?_
    show _ = decide (entry.1 ∉ share.reminders ++ share'.reminders)
    simp [Bool.and_comm]
  outstanding := by
    rw [second.outstanding, first.outstanding]
    exact (List.diff_append _ _ _).symm
  running := by
    rw [second.running, first.running]
    show _ = w.host.countdown.running.filter (·.route ∉ share.routes ++ share'.routes)
    cases w.host.countdown.running with
    | none => rfl
    | some c => by_cases here : c.route ∈ share.routes <;> simp [Option.filter, here]
  willing := second.willing

/-- The order within a share makes no difference. -/
theorem congr (returned : w.Returned share v)
    (reminders : ∀ id, id ∈ share'.reminders ↔ id ∈ share.reminders)
    (tokens : share'.tokens.Perm share.tokens)
    (routes : ∀ route, route ∈ share'.routes ↔ route ∈ share.routes) : w.Returned share' v where
  active := by
    rw [returned.active]
    refine List.filter_congr fun entry _ => ?_
    simp [reminders]
  outstanding := by
    rw [returned.outstanding]
    exact List.Perm.diff_left _ tokens.symm
  running := by
    rw [returned.running]
    simp [routes]
  willing := returned.willing

theorem note (returned : w.Returned share v) (entry : Entry) : w.Returned share (v.note entry) :=
  ⟨returned.active, returned.outstanding, returned.running, returned.willing⟩

end World.Returned

theorem ReminderBook.remove_willing {b : ReminderBook} (willing : b.Willing) (id : Nat) :
    (b.remove id).1 = .ok () ∧ (b.remove id).2.active = b.active.filter (·.1 ≠ id) := by
  have unrefused : ¬ b.failing = true := Bool.eq_false_iff.mp willing
  unfold remove
  rw [if_neg unrefused]
  by_cases active : id ∈ b.ids
  · rw [if_pos active]
    exact ⟨rfl, rfl⟩
  · rw [if_neg active]
    refine ⟨rfl, (List.filter_eq_self.mpr fun entry mem => ?_).symm⟩
    have other : entry.1 ≠ id := fun same => active (same ▸ List.mem_map_of_mem mem)
    simpa using other

namespace World

variable {w : World InMemory} (willing : w.host.Willing)
include willing

theorem removeReminder_returned (id : Nat) :
    ∃ v, w.removeReminder InMemory.services id = (.ok (), v) ∧ w.Returned ⟨[id], [], []⟩ v := by
  obtain ⟨answered, active⟩ := ReminderBook.remove_willing willing.reminders id
  obtain ⟨v, removed, good⟩ := removeReminder_ok InMemory.reliable.calm id willing
  refine ⟨v, removed, ?_⟩
  have same : v = (w.removeReminder InMemory.services id).2 := by rw [removed]
  have aside := (Returned.refl willing).running
  refine ⟨?_, ?_, ?_, good⟩
  all_goals rw [same]
  · show (w.host.reminders.remove id).2.active = _
    simpa using active
  · rfl
  · exact aside

theorem setPaused_returned (paused : Bool) :
    ∃ v, w.setPaused InMemory.services paused = (.ok (), v) ∧ w.Returned .none v := by
  obtain ⟨v, set, good⟩ := ask_ok (InMemory.reliable.setPaused paused) (.setPaused paused) willing
  have same : v = (w.setPaused InMemory.services paused).2 := by
    rw [setPaused, set]
  have active := ReminderBook.active_setPaused paused w.host.reminders
  have aside := Returned.refl willing
  refine ⟨v, set, ?_, ?_, ?_, good⟩
  all_goals rw [same]
  · exact active.trans aside.active
  · rfl
  · exact aside.running

theorem releasePause_returned (token : Nat) :
    ∃ v, w.releasePause InMemory.services token = (.ok (), v) ∧ w.Returned ⟨[], [token], []⟩ v := by
  have aside := Returned.refl willing
  have erased : w.pause.outstanding.diff [token] = w.pause.outstanding.erase token :=
    List.diff_cons _ _ _
  unfold releasePause PauseRequests.release
  by_cases outstanding : token ∈ w.pause.outstanding
  · simp only [outstanding, if_true]
    split
    · exact ⟨_, rfl, aside.active, erased.symm, aside.running, willing⟩
    · obtain ⟨v, set, returned⟩ := setPaused_returned willing false
      simp only [set]
      exact ⟨_, rfl, returned.active, erased.symm, returned.running, returned.willing⟩
  · simp only [outstanding, if_false]
    refine ⟨_, rfl, aside.active, ?_, aside.running, willing⟩
    rw [erased, List.erase_of_not_mem outstanding]

theorem cancelCountdown_returned (route : List Nat) :
    ∃ v, w.cancelCountdown InMemory.services route = (.ok (), v) ∧
      w.Returned ⟨[], [], [route]⟩ v := by
  obtain ⟨v, cancelled, good⟩ :=
    ask_ok (InMemory.reliable.cancelCountdown route) (.cancelCountdown route) willing
  have same : v = (w.cancelCountdown InMemory.services route).2 := by
    rw [cancelCountdown, cancelled]
  have aside := Returned.refl willing
  have unrefused : ¬ w.host.countdown.failing = true := Bool.eq_false_iff.mp willing.countdown
  refine ⟨v, cancelled, ?_, ?_, ?_, good⟩
  all_goals rw [same]
  · exact aside.active
  · rfl
  · simp [cancelCountdown, ask, InMemory.services, InMemory.onCountdown, CountdownBoard.cancel,
      CountdownBoard.answer, unrefused]

end World

/-- The operation is answered and has given back the share. -/
structure Outcome.Gives {τ : Type} (o : Outcome InMemory τ Unit) (share : Share)
    (w : World InMemory) : Prop where
  answered : o.result = .ok ()
  returned : w.Returned share o.world

namespace Outcome.Gives

variable {τ υ : Type} {o : Outcome InMemory τ Unit} {share share' : Share} {w : World InMemory}

theorem bind {wrap : τ → υ} {next : Unit → τ → World InMemory → Outcome InMemory υ Unit}
    (first : o.Gives share w) (then_gives : (next () o.part o.world).Gives share' o.world) :
    (o.bind wrap next).Gives (share ++ share') w := by
  obtain ⟨result, part, v⟩ := o
  obtain ⟨rfl, returned⟩ := first
  exact ⟨then_gives.answered, returned.trans then_gives.returned⟩

theorem within (gives : o.Gives share w) (wrap : τ → υ) : (o.within wrap).Gives share w :=
  ⟨gives.answered, gives.returned⟩

theorem willing (gives : o.Gives share w) : o.world.host.Willing := gives.returned.willing

/-- The order within a share makes no difference. -/
theorem congr (gives : o.Gives share w)
    (reminders : ∀ id, id ∈ share'.reminders ↔ id ∈ share.reminders)
    (tokens : share'.tokens.Perm share.tokens)
    (routes : ∀ route, route ∈ share'.routes ↔ route ∈ share.routes) : o.Gives share' w :=
  ⟨gives.answered, gives.returned.congr reminders tokens routes⟩

/-- A note that was made before has nothing to do with it. -/
theorem of_note {entry : Entry} (gives : o.Gives share (w.note entry)) : o.Gives share w :=
  ⟨gives.answered, gives.returned.active, gives.returned.outstanding, gives.returned.running,
    gives.returned.willing⟩

theorem nothing {part : τ} (willing : w.host.Willing) :
    (⟨.ok (), part, w⟩ : Outcome InMemory τ Unit).Gives .none w :=
  ⟨rfl, .refl willing⟩

end Outcome.Gives

section Leaving

variable {w : World InMemory} (willing : w.host.Willing)
include willing

namespace LeaveHook

theorem run_returned {hook : LeaveHook} (succeeds : hook.Succeeds) :
    ∃ v, hook.run InMemory.services w = (.ok (), v) ∧ w.Returned ⟨hook.held, [], []⟩ v := by
  cases hook with
  | removeReminder id => exact w.removeReminder_returned willing id
  | custom name failure =>
    cases succeeds
    exact ⟨_, rfl, (World.Returned.refl willing).note _⟩

theorem runAll_gives {hooks : List LeaveHook} (succeed : ∀ hook ∈ hooks, hook.Succeeds) :
    (runAll InMemory.services hooks w).Gives ⟨hooks.flatMap held, [], []⟩ w := by
  induction hooks generalizing w with
  | nil => exact .nothing willing
  | cons hook rest ih =>
    obtain ⟨v, ran, returned⟩ := run_returned willing (succeed hook List.mem_cons_self)
    have others := ih returned.willing fun other mem => succeed other (List.mem_cons_of_mem hook mem)
    simp only [runAll, ran]
    exact ⟨others.answered, returned.trans others.returned⟩

end LeaveHook

namespace Sleep

/-- The route of a countdown that a wait has to cancel. -/
def counting (s : Sleep) : List (List Nat) := if s.isRunning then [s.route] else []

theorem giveBackToken_gives (s : Sleep) :
    (s.giveBackToken InMemory.services w).Gives ⟨[], s.token.toList, []⟩ w := by
  unfold giveBackToken
  split
  · next none =>
    rw [none]
    exact .nothing willing
  · next token held =>
    obtain ⟨v, released, returned⟩ := w.releasePause_returned willing token
    simp only [released, held]
    exact ⟨rfl, returned⟩

theorem release_gives (s : Sleep) :
    (s.release InMemory.services w).Gives ⟨[], s.token.toList, s.counting⟩ w := by
  unfold release counting
  split
  · obtain ⟨v, cancelled, returned⟩ := w.cancelCountdown_returned willing s.route
    have given := giveBackToken_gives returned.willing { s with remaining := .zero }
    simp only [cancelled]
    exact ⟨given.answered, returned.trans given.returned⟩
  · exact s.giveBackToken_gives willing

end Sleep

namespace Block

/-- The route of the countdown, if the block is a wait that still counts. -/
def counting (b : Block) : List (List Nat) :=
  match b.activity with
  | .sleep s => s.counting
  | _ => []

theorem unregister_gives (b : Block) :
    (b.unregister InMemory.services w).Gives ⟨b.handle.toList, [], []⟩ w := by
  unfold unregister
  split
  · next none =>
    rw [none]
    exact .nothing willing
  · next id held =>
    obtain ⟨v, removed, returned⟩ := w.removeReminder_returned willing id
    simp only [removed, held]
    exact ⟨rfl, returned⟩

theorem discard_gives {b : Block} (succeed : b.HooksSucceed) :
    (b.discard InMemory.services w).Gives ⟨b.held, [], []⟩ w := by
  have unregistered := b.unregister_gives willing
  have ran : ((b.unregister InMemory.services w).part.runHooks InMemory.services
      (b.unregister InMemory.services w).world).Gives ⟨b.hooks.flatMap LeaveHook.held, [], []⟩
      (b.unregister InMemory.services w).world := by
    unfold runHooks
    rw [b.unregister_hooks InMemory.services w]
    exact (LeaveHook.runAll_gives unregistered.willing succeed).within _
  have both : (b.discard InMemory.services w).Gives
      (⟨b.handle.toList, [], []⟩ ++ ⟨b.hooks.flatMap LeaveHook.held, [], []⟩) w :=
    unregistered.bind ran
  exact both

theorem wrapUp_gives (b : Block) :
    (b.wrapUp InMemory.services w).Gives ⟨[], b.tokens, b.counting⟩ w := by
  cases activity : b.activity with
  | sleep s =>
    simp only [wrapUp, tokens, counting, activity]
    exact (s.release_gives willing).within _
  | _ =>
    simp only [wrapUp, tokens, counting, activity]
    exact .nothing willing

theorem leave_gives {b : Block} (succeed : b.HooksSucceed) :
    (b.leave InMemory.services w).Gives ⟨b.held, b.tokens, b.counting⟩ w := by
  have wrapped := b.wrapUp_gives willing
  have still : (b.wrapUp InMemory.services w).part.HooksSucceed := by
    intro hook mem
    rw [b.wrapUp_hooks InMemory.services w] at mem
    exact succeed hook mem
  have same : (b.wrapUp InMemory.services w).part.held = b.held := by
    unfold wrapUp
    split <;> rfl
  have discarded := discard_gives wrapped.willing still
  rw [same] at discarded
  have left : (b.leave InMemory.services w).Gives
      (⟨[], b.tokens, b.counting⟩ ++ ⟨b.held, [], []⟩) w := wrapped.bind discarded
  simpa using left

end Block

theorem discardAll_gives {blocks : List Block} (succeed : ∀ b ∈ blocks, b.HooksSucceed) :
    (discardAll InMemory.services blocks w).Gives ⟨blocksHeld blocks, [], []⟩ w := by
  induction blocks generalizing w with
  | nil => exact .nothing willing
  | cons b rest ih =>
    have discarded := Block.discard_gives willing (succeed b List.mem_cons_self)
    have others := (ih discarded.willing fun c mem => succeed c (List.mem_cons_of_mem b mem)).within
      ((b.discard InMemory.services w).part :: ·)
    have both : (discardAll InMemory.services (b :: rest) w).Gives
        (⟨b.held, [], []⟩ ++ ⟨blocksHeld rest, [], []⟩) w := discarded.bind others
    exact both

namespace Sequence

theorem unregister_gives (s : Sequence) :
    (s.unregister InMemory.services w).Gives ⟨s.handle.toList, [], []⟩ w := by
  unfold unregister
  split
  · next none =>
    rw [none]
    exact .nothing willing
  · next id held =>
    obtain ⟨v, removed, returned⟩ := w.removeReminder_returned willing id
    simp only [removed, held]
    exact ⟨rfl, returned⟩

theorem giveUp_gives {s : Sequence} (succeed : ∀ b ∈ s.ahead, b.HooksSucceed) :
    (s.giveUp InMemory.services w).Gives ⟨blocksHeld s.ahead ++ s.handle.toList, [], []⟩ w := by
  have discarded := discardAll_gives willing succeed
  have unregistered := unregister_gives discarded.willing
    { s with ahead := (discardAll InMemory.services s.ahead w).part }
  have both : (s.giveUp InMemory.services w).Gives
      (⟨blocksHeld s.ahead, [], []⟩ ++ ⟨s.handle.toList, [], []⟩) w := discarded.bind unregistered
  exact both

/-- The share of a sequence without its threads. -/
def share (s : Sequence) : Share :=
  ⟨blocksHeld s.ahead ++ s.handle.toList, s.current?.toList.flatMap Block.tokens,
    s.current?.toList.flatMap Block.counting⟩

theorem halt_gives {s : Sequence} (succeed : ∀ b ∈ s.ahead, b.HooksSucceed) :
    (s.halt InMemory.services w).Gives s.share w := by
  unfold halt share
  cases now : s.ahead with
  | nil =>
    have given := giveUp_gives willing succeed
    rw [now] at given
    simpa [current?, now] using given
  | cons b rest =>
    rw [now] at succeed
    have left := Block.leave_gives willing (succeed b List.mem_cons_self)
    have given := giveUp_gives (s := s.advance (b.leave InMemory.services w).part rest)
      (w := s.noteLeft (b.leave InMemory.services w).part (b.leave InMemory.services w).world)
      left.willing fun c mem => succeed c (List.mem_cons_of_mem b mem)
    have both : ((b.leave InMemory.services w).bind (fun b => { s with ahead := b :: rest })
        fun _ b w => (s.advance b rest).giveUp InMemory.services (s.noteLeft b w)).Gives
        (⟨b.held, b.tokens, b.counting⟩ ++ ⟨blocksHeld rest ++ s.handle.toList, [], []⟩) w :=
      left.bind given.of_note
    simpa [current?, now] using both

end Sequence

end Leaving

mutual

/-- The routes of the running waits of the tree that still count. -/
def Execution.counting : Execution → List (List Nat)
  | ⟨line, threads⟩ =>
    if line.isRunning then line.current?.toList.flatMap Block.counting ++ threadsCounting threads
    else []

def threadsCounting : List Thread → List (List Nat)
  | [] => []
  | ⟨_, execution⟩ :: rest => execution.counting ++ threadsCounting rest

end

/-- All that an execution and the threads in it have from the host. -/
def Execution.share (e : Execution) : Share := ⟨e.held, e.sleepTokens, e.counting⟩

def threadsShare (threads : List Thread) : Share :=
  ⟨threadsHeld threads, threadsTokens threads, threadsCounting threads⟩

mutual

/-- A thread that is cancelled gives back what is in it. -/
theorem Execution.cancel_gives : ∀ {e : Execution} {w : World InMemory}, w.host.Willing →
    e.Orderly → e.Plain → (e.cancel InMemory.services w).Gives e.share w
  | ⟨line, threads⟩, w, willing, orderly, plain => by
    rw [Execution.cancel]
    split
    · next running =>
      obtain ⟨behind, -, threads_plain, inside⟩ := orderly
      have behind : blocksHeld line.behind = [] := behind
      have cancelled := cancelThreads_gives willing inside threads_plain
      have halted := (Sequence.halt_gives cancelled.willing (s := { line with cancelled := true })
        plain.hooks).within fun line => (⟨line, []⟩ : Execution)
      have both : ((cancelThreads InMemory.services threads w).bind
          (fun _ => (⟨{ line with cancelled := true }, []⟩ : Execution)) fun _ _ w =>
            ({ line with cancelled := true }.halt InMemory.services w).within (⟨·, []⟩)).Gives
          (threadsShare threads ++ line.share) w := cancelled.bind halted
      refine both.congr (fun id => ?_) ?_ fun route => ?_
      · simp only [Execution.share, threadsShare, Sequence.share, Share.append_mk, Execution.held,
          behind, List.nil_append, List.mem_append]
        tauto
      · rw [Execution.share, Execution.sleepTokens]
        exact List.perm_append_comm
      · simp only [Execution.share, threadsShare, Sequence.share, Share.append_mk,
          Execution.counting, running, if_true, List.mem_append]
        exact or_comm
    · next idle =>
      have nothing := plain.idle (Bool.not_eq_true _ ▸ idle)
      obtain ⟨held, tokens⟩ : Execution.held ⟨line, threads⟩ = [] ∧
          Execution.sleepTokens ⟨line, threads⟩ = [] := by
        simpa [Execution.holdings] using nothing
      rw [Execution.share, held, tokens, Execution.counting, if_neg idle]
      exact .nothing willing

theorem cancelThreads_gives : ∀ {threads : List Thread} {w : World InMemory}, w.host.Willing →
    (∀ t ∈ threads, t.execution.Orderly) → (∀ t ∈ threads, t.execution.Plain) →
      (cancelThreads InMemory.services threads w).Gives (threadsShare threads) w
  | [], w, willing, _, _ => .nothing willing
  | ⟨branch, execution⟩ :: rest, w, willing, orderly, plain => by
    have here := Execution.cancel_gives willing (orderly _ List.mem_cons_self)
      (plain _ List.mem_cons_self)
    have others := cancelThreads_gives here.willing
      (fun t mem => orderly t (List.mem_cons_of_mem _ mem))
      fun t mem => plain t (List.mem_cons_of_mem _ mem)
    have both : (cancelThreads InMemory.services (⟨branch, execution⟩ :: rest) w).Gives
        (execution.share ++ threadsShare rest) w := by
      rw [cancelThreads]
      exact here.bind others
    exact both

end

end Stepwise
