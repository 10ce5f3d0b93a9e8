import Stepwise.Proofs.Applicability
import Stepwise.Proofs.Lasting

/-!
# Waits that are ended twice

An event tells where a block is, not which block it is for. A wait leaves at the first event that
ends it, and when the same event comes once more it is for whatever is then current in that place.
It is passed over there, unless it has come to another wait: then it ends that one.
-/

namespace Stepwise

variable {σ : Type} {Good : σ → Prop} {services : Services σ}

/-- The event ends a wait. -/
def Event.endsWait : Event → Bool
  | .skip | .elapsed => true
  | _ => false

/-- In between the block at this address and index has left. -/
def Leaves (address : List Nat) (index : Nat) (earlier later : List Entry) : Prop :=
  ∃ text before after, later = after ++ .left address index text :: (before ++ earlier)

theorem Leaves.later {address : List Nat} {index : Nat} {first second third : List Entry}
    (leaves : Leaves address index first second) (further : second <:+ third) :
    Leaves address index first third := by
  obtain ⟨text, before, after, rfl⟩ := leaves
  obtain ⟨latest, rfl⟩ := further
  exact ⟨text, before, latest ++ after, by rw [List.append_assoc]⟩

theorem Leaves.from_earlier {address : List Nat} {index : Nat} {first second third : List Entry}
    (leaves : Leaves address index second third) (onward : first <:+ second) :
    Leaves address index first third := by
  obtain ⟨text, before, after, rfl⟩ := leaves
  obtain ⟨new, rfl⟩ := onward
  exact ⟨text, before ++ new, after, by rw [List.append_assoc]⟩

/-- A callback that fails is not called again. -/
theorem LeaveHook.runAll_fewer {hooks : List LeaveHook} {w : World σ} {error : ServiceError}
    (failed : (runAll services hooks w).result = .error error) :
    (runAll services hooks w).part.length < hooks.length := by
  induction hooks generalizing w with
  | nil => cases failed
  | cons hook rest ih =>
    rw [runAll] at failed ⊢
    rcases ran : hook.run services w with ⟨answer, v⟩
    simp only [ran] at failed ⊢
    cases answer with
    | ok _ => exact Nat.lt_succ_of_lt (ih failed)
    | error _ => exact Nat.lt_succ_self _

section Reliable

variable (reliable : services.Reliable Good)
include reliable

theorem Block.leave_fewer (b : Block) {w : World σ} (good : Good w.host) {error : ServiceError}
    (failed : (b.leave services w).result = .error error) :
    (b.leave services w).part.hooks.length < b.hooks.length := by
  obtain ⟨v, wrapped, good_v⟩ := b.wrapUp_ok reliable good
  have ran (c : Block) (same : c.hooks = b.hooks) (u : World σ)
      (failed : (c.runHooks services u).result = .error error) :
      (c.runHooks services u).part.hooks.length < b.hooks.length := by
    rw [← same]
    exact LeaveHook.runAll_fewer failed
  simp only [leave, wrapped, Outcome.bind, discard, unregister] at failed ⊢
  cases handle : b.handle with
  | none =>
    simp only [handle] at failed ⊢
    exact ran _ rfl _ failed
  | some id =>
    obtain ⟨u, removed, -⟩ := World.removeReminder_ok reliable.calm id good_v
    simp only [handle, removed] at failed ⊢
    exact ran _ rfl _ failed

/-- A wait leaves at an event that ends it. -/
theorem Block.react_ends {b : Block} {s : Sleep} (asleep : b.activity = .sleep s) {event : Event}
    (ends : event.endsWait = true) {w : World σ} (good : Good w.host) :
    ∃ v, b.react services event w = ⟨.ok (.leave []),
        { b with activity := .sleep { s with remaining := .zero } }, v⟩ ∧
      Good v.host ∧ w.journal <:+ v.journal := by
  cases event with
  | elapsed => exact ⟨w, by simp only [react, asleep], good, List.suffix_refl _⟩
  | skip =>
    have onward : w.journal <:+ (w.forceFinish services).2.journal := List.suffix_cons _ _
    obtain ⟨v, forced, good_v⟩ := World.ask_ok reliable.forceFinish .forceFinish good
    have forced : w.forceFinish services = (.ok (), v) := forced
    rw [forced] at onward
    exact ⟨v, by simp only [react, asleep, forced], good_v, onward⟩
  | _ => cases ends

end Reliable

namespace Execution

variable {e x : Execution} {b : Block} {rest ahead : List Block} {path : List Nat} {event : Event}
  {w : World σ}

/-- The current block of the thread at the path is a wait. -/
def sleepsAt (path : List Nat) (e : Execution) : Bool :=
  e.isRunning && (((e.thread? path).bind (·.current?)).bind Block.sleep?).isSome

theorem sleepsAt_iff : e.sleepsAt path = true ↔ e.isRunning = true ∧
    ∃ x b rest s, e.thread? path = some x ∧ x.ahead = b :: rest ∧ b.activity = .sleep s := by
  have asleep (b : Block) : b.sleep?.isSome = true ↔ ∃ s, b.activity = .sleep s := by
    unfold Block.sleep?
    cases b.activity <;> simp
  simp only [sleepsAt, Bool.and_eq_true, Option.isSome_bind, Option.any_eq_true,
    Option.bind_eq_some_iff, Sequence.current?, List.head?_eq_some_iff]
  refine and_congr_right fun _ => ⟨?_, ?_⟩
  · rintro ⟨b, ⟨x, found, rest, now⟩, is_wait⟩
    obtain ⟨s, activity⟩ := (asleep b).mp is_wait
    exact ⟨x, b, rest, s, found, now, activity⟩
  · rintro ⟨x, b, rest, s, found, now, activity⟩
    exact ⟨b, ⟨x, found, rest, now⟩, (asleep b).mpr ⟨s, activity⟩⟩

/-- Just the waits take an event that ends a wait. -/
theorem accepts_eq_sleepsAt (ends : event.endsWait = true) :
    e.accepts path event = e.sleepsAt path := by
  have takes (b : Block) : b.activity.takes event = b.sleep?.isSome := by
    unfold Block.sleep?
    cases b.activity <;> cases event <;> first | rfl | cases ends
  unfold accepts sleepsAt
  congr 1
  cases (e.thread? path).bind (·.current?) with
  | none => rfl
  | some b => exact takes b

theorem leave_records (e : Execution) (b : Block) (ahead : List Block) (w : World σ) :
    (e.leave services b ahead w).result = .ok () →
      Leaves e.address e.cursor w.journal (e.leave services b ahead w).world.journal := by
  let recorded (o : Outcome σ Execution Unit) : Prop :=
    o.result = .ok () → Leaves e.address e.cursor w.journal o.world.journal
  have here (c : Block) (v : World σ) :
      Leaves e.address e.cursor v.journal (e.noteLeft c v).journal := ⟨c.shownText, [], [], rfl⟩
  have cancelled : Onward (fun _ => True) w.journal
      (cancelThreads services e.threads w).world.journal :=
    cancelThreads_onward e.threads w
  have left (v : World σ) : Onward (fun _ => True) v.journal (b.leave services v).world.journal :=
    b.leave_onward v
  have onward := (cancelled.trans (left _)).suffix
  refine Outcome.bind_cases (motive := recorded) (fun _ _ failed => nomatch failed) fun _ _ => ?_
  refine Outcome.bind_cases (motive := recorded) (fun _ _ failed => nomatch failed) fun _ _ _ => ?_
  exact ((here _ _).from_earlier onward).later (enter_onward _ _ : Onward (fun _ => True) _ _).suffix

section Reliable

variable (reliable : services.Reliable Good)
include reliable

/-- The wait leaves as a wait that is over. -/
theorem dispatch_here_ends {s : Sleep} (running : e.isRunning = true) (now : e.ahead = b :: rest)
    (asleep : b.activity = .sleep s) (ends : event.endsWait = true) (good : Good w.host) :
    ∃ v, e.dispatch services event [] w =
        e.leave services { b with activity := .sleep { s with remaining := .zero } } rest v ∧
      Good v.host ∧ w.journal <:+ v.journal := by
  obtain ⟨v, reacted, good_v, onward⟩ := b.react_ends reliable asleep ends good
  refine ⟨v, ?_, good_v, onward⟩
  rw [dispatch_here running now, reacted, Outcome.bind_ok]
  rfl

/-- It has left if the event is answered. -/
theorem Routes.ends {s : Sleep} (routes : e.Routes services path x) (now : x.ahead = b :: rest)
    (asleep : b.activity = .sleep s) (ends : event.endsWait = true) (good : Good w.host) :
    (e.dispatch services event path w).result = .ok () →
      Leaves x.address x.cursor w.journal (e.dispatch services event path w).world.journal := by
  obtain ⟨goes_on, -, onward, delivered⟩ := routes.dispatch
  obtain ⟨v, left, -, before⟩ := dispatch_here_ends reliable routes.running now asleep ends good
  rw [delivered, left]
  refine Outcome.bind_cases (motive := fun o => o.result = .ok () →
    Leaves x.address x.cursor w.journal o.world.journal) (fun _ _ failed => nomatch failed) ?_
  intro _ answered _
  have recorded := leave_records _ _ _ _ answered
  exact (recorded.from_earlier before).later (onward (fun _ => True) _ _).suffix

/-- The current block leaves, or it has fewer callbacks left and no threads. -/
theorem leave_alters (quiet : hooksSucceed e.threads) (good : Good w.host) :
    e.cursor < (e.leave services b ahead w).part.cursor ∨
      ∃ left, (e.leave services b ahead w).part = ⟨{ e.toSequence with ahead := left :: ahead }, []⟩ ∧
        left.hooks.length < b.hooks.length := by
  obtain ⟨v, cancelled, good_v⟩ := cancelThreads_ok reliable quiet good
  rw [leave, cancelled, Outcome.bind_ok]
  rcases left : b.leave services v with ⟨answer, c, u⟩
  cases answer with
  | error error =>
    have fewer : c.hooks.length < b.hooks.length := by
      have fewer := b.leave_fewer reliable good_v (congrArg Outcome.result left)
      rwa [left] at fewer
    exact Or.inr ⟨c, rfl, fewer⟩
  | ok _ =>
    have evolves := enter_evolves services ⟨e.advance c ahead, []⟩ (e.noteLeft c u) rfl
    exact Or.inl (Nat.lt_of_lt_of_le (Nat.lt_succ_self _) evolves.grows.line.cursor_le)

theorem dispatch_here_alters {s : Sleep} (running : e.isRunning = true) (now : e.ahead = b :: rest)
    (asleep : b.activity = .sleep s) (ends : event.endsWait = true)
    (quiet : hooksSucceed e.threads) (good : Good w.host) :
    (e.dispatch services event [] w).part ≠ e := by
  obtain ⟨v, left, good_v, -⟩ := dispatch_here_ends reliable running now asleep ends good
  rw [left]
  intro same
  let spent : Block := { b with activity := .sleep { s with remaining := .zero } }
  have changes : e.cursor < (e.leave services spent rest v).part.cursor ∨
      ∃ left, (e.leave services spent rest v).part =
        ⟨{ e.toSequence with ahead := left :: rest }, []⟩ ∧ left.hooks.length < b.hooks.length :=
    leave_alters reliable quiet good_v
  rcases changes with further | ⟨left, stuck, fewer⟩
  · rw [same] at further
    exact Nat.lt_irrefl _ further
  · rw [stuck] at same
    have ahead : left :: rest = e.ahead := congrArg (fun e : Execution => e.ahead) same
    rw [now] at ahead
    cases ahead
    exact Nat.lt_irrefl _ fewer

/-- An event that ends a wait changes the tree, also where a callback breaks it off. -/
theorem dispatch_alters {s : Sleep} (staffed : e.Staffed) (running : e.isRunning = true)
    (found : e.thread? path = some x) (now : x.ahead = b :: rest) (asleep : b.activity = .sleep s)
    (ends : event.endsWait = true) (good : Good w.host) :
    (e.dispatch services event path w).part ≠ e := by
  induction path generalizing e with
  | nil =>
    cases found
    refine dispatch_here_alters reliable running now asleep ends ?_ good
    by_cases none : x.threads = []
    · rw [none]
      trivial
    · exact (staffed.threads none).2
  | cons branch path ih =>
    obtain ⟨t, mem, -, rfl, inside⟩ := thread?_found found
    obtain ⟨settled, quiet⟩ := staffed.threads (List.ne_nil_of_mem mem)
    obtain ⟨c, cs, join, group⟩ := settled.atGroup_of_mem mem
    obtain ⟨before, after, threads⟩ := List.append_of_mem mem
    have place := settled.atThread group threads
    have t_settled := ((settled_iff e).mp settled).2.2 t mem
    have t_quiet := (hooksSucceed_forall _).mp quiet t mem
    obtain ⟨y, v, delivered, -⟩ := settled.delivers reliable quiet mem event path good
    have changed := ih (.of_settled t_settled ((hooksSucceed_iff _).mp t_quiet).2)
      t_settled.isRunning inside
    rw [delivered] at changed
    rw [place.dispatch, delivered, Outcome.bind_ok]
    intro same
    by_cases short : y.finished = true → join.completed + 1 ≠ join.target
    · rw [place.afterThread_short short] at same
      have all : before ++ t.kept y ++ after = e.threads :=
        congrArg (fun e : Execution => e.threads) same
      rw [threads, List.append_assoc, List.append_cancel_left_eq] at all
      unfold Thread.kept at all
      split at all
      · exact absurd (congrArg List.length all) (by simp)
      · obtain ⟨same_thread, -⟩ := List.cons.inj all
        exact changed (congrArg Thread.execution same_thread)
    · obtain ⟨finished, enough⟩ := Classical.not_imp.mp short
      have gone : ¬ GroupLasts [] e
          (e.afterThread services c cs join before after { t with execution := y } v).part :=
        place.breaks finished (not_not.mp enough) v
      rw [same] at gone
      exact gone (groupLasts_nil.mpr ⟨rfl, List.ne_nil_of_mem mem⟩)

end Reliable

end Execution

namespace Run

variable {r : Run σ} {path : List Nat} {event : Event}

/-- The event reaches a wait, and this has left if the event is answered. -/
def EndsWait (services : Services σ) (path : List Nat) (event : Event) (r : Run σ) : Prop :=
  ∃ x b s, r.root.thread? path = some x ∧ x.current? = some b ∧ b.activity = .sleep s ∧
    ((r.dispatch services path event).1 = .ok () → Leaves path x.cursor r.world.journal
      (r.perform services (.dispatch path event)).world.journal)

theorem Rooted.endsWait (reliable : services.Reliable Good) (rooted : r.Rooted Good)
    (ends : event.endsWait = true) (asleep : r.root.sleepsAt path = true) :
    r.EndsWait services path event ∧
      (r.perform services (.dispatch path event)).root ≠ r.root := by
  obtain ⟨running, x, b, rest, s, found, now, activity⟩ := Execution.sleepsAt_iff.mp asleep
  have current : x.current? = some b := by rw [Sequence.current?, now, List.head?_cons]
  refine ⟨⟨x, b, s, found, current, activity, ?_⟩, ?_⟩
  · have left := (rooted.routes running found).ends reliable now activity ends rooted.good
    rw [rooted.address_thread found] at left
    intro answered
    refine left ?_
    rw [dispatch, ofOutcome] at answered
    generalize r.root.dispatch services event path r.world = o at answered ⊢
    obtain ⟨result, part, v⟩ := o
    cases result with
    | ok _ => rfl
    | error error => cases answered
  · exact Execution.dispatch_alters reliable rooted.staffed running found now activity ends
      rooted.good

/-- An event that ends a wait comes twice. The wait leaves at the first one if that is answered,
which only a callback can prevent. The second one changes nothing and gives a notice, unless there
is a wait in that place again: then it is for this one, and the tree is not the same afterwards. -/
theorem ended_twice (reliable : services.Reliable Good) {blocks : List HostBlock}
    (fresh : r.Fresh blocks) (good : Good r.world.host) (calls : List Call)
    (ends : event.endsWait = true) (asleep : (r.after services calls).root.sleepsAt path = true) :
    let now := r.after services calls
    let once := now.perform services (.dispatch path event)
    let twice := once.perform services (.dispatch path event)
    now.EndsWait services path event ∧
      (twice.root = once.root ↔ once.root.sleepsAt path = false) ∧
      (once.root.sleepsAt path = false → (once.dispatch services path event).1 = .ok () ∧
        ∃ notice, twice.world = once.world.passOver notice) ∧
      (once.root.sleepsAt path = true → once.EndsWait services path event) := by
  intro now once twice
  have before := fresh.rooted_after reliable good calls
  have rooted : once.Rooted Good := before.perform reliable (.dispatch path event)
  have passes (awake : once.root.sleepsAt path = false) : ∃ notice,
      once.dispatch services path event = (.ok (), ⟨once.root, once.world.passOver notice⟩) := by
    rw [← Execution.accepts_eq_sleepsAt ends] at awake
    obtain ⟨notice, passed⟩ := rooted.passes awake once.world
    exact ⟨notice, by rw [dispatch, passed]; rfl⟩
  refine ⟨(before.endsWait reliable ends asleep).1, ⟨?_, ?_⟩, ?_, ?_⟩
  · intro same
    refine Bool.eq_false_iff.mpr fun still => ?_
    exact (rooted.endsWait reliable ends still).2 same
  · intro awake
    obtain ⟨notice, passed⟩ := passes awake
    simp only [twice, perform, passed]
  · intro awake
    obtain ⟨notice, passed⟩ := passes awake
    refine ⟨by rw [passed], notice, ?_⟩
    simp only [twice, perform, passed]
  · exact fun again => (rooted.endsWait reliable ends again).1

/-- A wait, in a thread and before a task. -/
def steeped : Run InMemory :=
  .ofWorkflow ⟨"tea", none, none, [.parallel "meanwhile" 2 [[.sleep 5 .minutes "steep" false,
    .task "strain"], [.task "pour"]]]⟩ .empty

theorem ended_twice_steeped :
    let now := steeped.after InMemory.services [.start]
    let once := now.perform InMemory.services (.dispatch [0] .skip)
    let twice := once.perform InMemory.services (.dispatch [0] .skip)
    (now.root.sleepsAt [0] = true ∧ once.root.sleepsAt [0] = false) ∧
    now.EndsWait InMemory.services [0] .skip ∧
      (twice.root = once.root ↔ once.root.sleepsAt [0] = false) ∧
      (once.root.sleepsAt [0] = false → (once.dispatch InMemory.services [0] .skip).1 = .ok () ∧
        ∃ notice, twice.world = once.world.passOver notice) ∧
      (once.root.sleepsAt [0] = true → once.EndsWait InMemory.services [0] .skip) :=
  ⟨by decide +kernel, ended_twice InMemory.reliable (fresh_ofWorkflow _ _) InMemory.willing_empty
    [.start] rfl (by decide +kernel)⟩

/-- Two waits, one after the other. -/
def naps : Run InMemory :=
  .ofWorkflow ⟨"rest", none, none, [.sleep 5 .minutes "doze" false, .sleep 9 .minutes "sleep" false]⟩
    .empty

/-- The second event ends the second wait. -/
theorem naps_both_over :
    let now := naps.after InMemory.services [.start]
    let once := fun event => now.perform InMemory.services (.dispatch [] event)
    let twice := fun event => (once event).perform InMemory.services (.dispatch [] event)
    now.root.sleepsAt [] = true ∧
      (((once .skip).root.cursor = 1 ∧ (once .skip).root.finished = false) ∧
        (twice .skip).root.finished = true ∧ (twice .skip).root ≠ (once .skip).root) ∧
      ((once .elapsed).root.cursor = 1 ∧ (once .elapsed).root.finished = false) ∧
        (twice .elapsed).root.finished = true ∧ (twice .elapsed).root ≠ (once .elapsed).root := by
  decide +kernel

end Run

end Stepwise
