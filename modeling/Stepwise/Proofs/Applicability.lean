import Stepwise.Proofs.Routing

/-!
# Events that apply and events that do not

An event applies if the root runs, the thread that it is for is there and the current block of that
thread takes it. An event that does not apply leaves behind one notice and nothing else. One that
applies gives no notice, whatever it sets off, and progress of a countdown changes only the seconds
that remain of the wait that it is for. Callbacks may fail as long as the services do not.
-/

namespace Stepwise

variable {σ : Type} {Good : σ → Prop} {services : Services σ}

/-- A journal that goes on without notices. -/
theorem Onward.silent {first second : List Entry} (onward : Onward (fun _ => False) first second) :
    ∃ new, second = new ++ first ∧ ∀ entry ∈ new, entry.notice? = none := by
  induction onward with
  | refl => exact ⟨[], rfl, List.forall_mem_nil _⟩
  | @aside later entry inert _ ih =>
    obtain ⟨new, rfl, silent⟩ := ih
    refine ⟨entry :: new, rfl, List.forall_mem_cons.mpr ⟨?_, silent⟩⟩
    cases entry with
    | passedOver notice => exact False.elim inert
    | _ => rfl
  | countdown _ ih =>
    obtain ⟨new, rfl, silent⟩ := ih
    exact ⟨_ :: _ :: new, rfl,
      List.forall_mem_cons.mpr ⟨rfl, List.forall_mem_cons.mpr ⟨rfl, silent⟩⟩⟩

namespace Execution

variable {e x : Execution} {b : Block} {rest : List Block} {path : List Nat} {event : Event}
  {w : World σ}

/-- Whether an event for a path applies. -/
def accepts (path : List Nat) (event : Event) (e : Execution) : Bool :=
  e.isRunning && ((e.thread? path).bind (·.current?)).any (·.activity.takes event)

theorem accepts_iff : e.accepts path event = true ↔ e.isRunning = true ∧
    ∃ x b rest, e.thread? path = some x ∧ x.ahead = b :: rest ∧
      b.activity.takes event = true := by
  simp only [accepts, Bool.and_eq_true, Option.any_eq_true, Option.bind_eq_some_iff,
    Sequence.current?, List.head?_eq_some_iff]
  constructor
  · rintro ⟨running, b, ⟨x, found, rest, now⟩, takes⟩
    exact ⟨running, x, b, rest, found, now, takes⟩
  · rintro ⟨running, x, b, rest, found, now, takes⟩
    exact ⟨running, b, ⟨x, found, rest, now⟩, takes⟩

theorem withThread_self (found : e.thread? path = some x) : e.withThread path x = e := by
  induction path generalizing e with
  | nil =>
    cases found
    rfl
  | cons branch path ih =>
    rw [thread?] at found
    split at found
    · next before t after searched =>
      obtain ⟨threads, -⟩ := findThread_some searched
      rw [withThread, searched]
      simp only [ih found]
      obtain ⟨line, _⟩ := e
      cases threads
      cases t
      rfl
    · cases found

/-- An event that the current block does not take. -/
theorem dispatch_here_passes (running : e.isRunning = true) (now : e.ahead = b :: rest)
    (refused : b.activity.takes event = false) (w : World σ) :
    e.dispatch services event [] w =
      ⟨.ok (), e, w.passOver (.notApplicable event b.type b.shownText)⟩ := by
  rw [dispatch_here running now, Block.react_passes refused, Outcome.bind_ok]
  obtain ⟨line, threads⟩ := e
  cases line
  cases now
  rfl

/-- Progress of the countdown of the current block. -/
theorem dispatch_here_ticks {s : Sleep} (running : e.isRunning = true) (now : e.ahead = b :: rest)
    (asleep : b.activity = .sleep s) (remaining : Binary64) (w : World σ) :
    e.dispatch services (.tick remaining) [] w = ⟨.ok (), { e with
      ahead := { b with activity := .sleep { s with remaining } } :: rest }, w⟩ := by
  rw [dispatch_here running now]
  simp only [Block.react, asleep, Outcome.bind_ok]

section Routes

variable (routes : e.Routes services path x)
include routes

theorem Routes.passes (found : e.thread? path = some x) (now : x.ahead = b :: rest)
    (refused : b.activity.takes event = false) (w : World σ) :
    e.dispatch services event path w =
      ⟨.ok (), e, w.passOver (.notApplicable event b.type b.shownText)⟩ := by
  obtain ⟨goes_on, waits, -, delivered⟩ := routes.dispatch
  rw [delivered, dispatch_here_passes routes.running now refused, Outcome.bind_ok,
    waits _ _ (Sequence.unfinished_of_running routes.running), withThread_self found]

theorem Routes.silent (now : x.ahead = b :: rest) (takes : b.activity.takes event = true)
    (w : World σ) :
    Onward (fun _ => False) w.journal (e.dispatch services event path w).world.journal := by
  obtain ⟨goes_on, -, onward, delivered⟩ := routes.dispatch
  rw [delivered]
  refine Outcome.bind_onward ?_ fun _ _ _ => onward _ _ _
  refine dispatch_here_onward (fun refused => ?_) routes.running now w
  rw [takes] at refused
  cases refused

theorem Routes.ticks {s : Sleep} (now : x.ahead = b :: rest) (asleep : b.activity = .sleep s)
    (remaining : Binary64) (w : World σ) :
    e.dispatch services (.tick remaining) path w = ⟨.ok (), e.withThread path { x with
      ahead := { b with activity := .sleep { s with remaining } } :: rest }, w⟩ := by
  obtain ⟨goes_on, waits, -, delivered⟩ := routes.dispatch
  rw [delivered, dispatch_here_ticks routes.running now asleep, Outcome.bind_ok]
  exact waits _ _ (Sequence.unfinished_of_running routes.running)

end Routes

end Execution

namespace Run

variable {r : Run σ}

/-- An event that does not apply gives a notice and changes nothing. One that applies gives no
notice, and progress of a countdown goes into its wait and nowhere else. -/
structure Discerns (services : Services σ) (r : Run σ) (path : List Nat) (event : Event) : Prop where
  passed : r.root.accepts path event = false → ∃ notice,
    r.dispatch services path event = (.ok (), ⟨r.root, r.world.passOver notice⟩)
  silent : r.root.accepts path event = true → ∃ new,
    (r.dispatch services path event).2.world.journal = new ++ r.world.journal ∧
      ∀ entry ∈ new, entry.notice? = none
  ticked : ∀ remaining, event = .tick remaining → r.root.accepts path event = true →
    ∃ x b s rest, r.root.thread? path = some x ∧ x.ahead = b :: rest ∧ b.activity = .sleep s ∧
      r.dispatch services path event = (.ok (), ⟨r.root.withThread path { x with
        ahead := { b with activity := .sleep { s with remaining } } :: rest }, r.world⟩)

theorem Living.passes (living : r.Living Good) {path : List Nat} {event : Event}
    (refused : r.root.accepts path event = false) (w : World σ) :
    ∃ notice, r.root.dispatch services event path w = ⟨.ok (), r.root, w.passOver notice⟩ := by
  by_cases running : r.root.isRunning = true
  · cases found : r.root.thread? path with
    | none =>
      obtain ⟨notice, -, passed⟩ := (living.unroutable_iff running path event w).mpr found
      exact ⟨notice, passed⟩
    | some x =>
      have routes : r.root.Routes services path x := living.routes running found
      obtain ⟨b, rest, now⟩ := routes.block
      have not_taken : b.activity.takes event = false := by
        refine Bool.eq_false_iff.mpr fun takes => ?_
        exact Bool.eq_false_iff.mp refused
          (Execution.accepts_iff.mpr ⟨running, x, b, rest, found, now, takes⟩)
      exact ⟨_, routes.passes found now not_taken w⟩
  · exact ⟨_, Execution.dispatch_idle (Bool.eq_false_iff.mpr running) event path w⟩

theorem events_discern (reliable : services.Reliable Good) {blocks : List HostBlock}
    (fresh : r.Fresh blocks) (good : Good r.world.host) (calls : List Call) (path : List Nat)
    (event : Event) : (r.after services calls).Discerns services path event := by
  have living := fresh.living_after reliable good calls
  constructor
  case passed =>
    intro refused
    obtain ⟨notice, passed⟩ := living.passes refused (r.after services calls).world
    exact ⟨notice, by rw [dispatch, passed]; rfl⟩
  case silent =>
    intro accepted
    obtain ⟨running, x, b, rest, found, now, takes⟩ := Execution.accepts_iff.mp accepted
    exact ((living.routes running found).silent now takes _).silent
  case ticked =>
    rintro remaining rfl accepted
    obtain ⟨running, x, b, rest, found, now, takes⟩ := Execution.accepts_iff.mp accepted
    cases asleep : b.activity with
    | sleep s =>
      refine ⟨x, b, s, rest, found, now, asleep, ?_⟩
      rw [dispatch, (living.routes running found).ticks now asleep]
      rfl
    | _ =>
      rw [asleep] at takes
      cases takes

/-- Right after the start a wait and two tasks are current: a tick is for the wait, no event is for
a group, and there is no third branch. -/
theorem events_discern_tea :
    let now := tea.after InMemory.services [.start]
    (now.root.accepts [1, 0] (.tick (.ofInt 42)) = true ∧ now.root.accepts [1, 1] .done = true ∧
      now.root.accepts [1, 0] .done = false ∧ now.root.accepts [1] .skip = false ∧
      now.root.accepts [2] .done = false) ∧
    ∀ path event, now.Discerns InMemory.services path event := by
  refine ⟨?_, fun path event => ?_⟩
  · decide +kernel
  · exact events_discern InMemory.reliable (fresh_ofWorkflow _ _) InMemory.willing_empty [.start]
      path event

end Run

end Stepwise
