import Stepwise.Proofs.Countdowns
import Stepwise.Proofs.Reliability

/-!
# Whose countdown runs

A wait is the only block that sets a countdown, and it does so for the address of its sequence. A
thread that is cancelled can therefore stop a countdown of its own place only, the addresses below
its own, and threads that are numbered have places apart from each other.
-/

namespace Stepwise

/-- The route, if there is one, is in the place. -/
def RouteIn (place : List Nat → Prop) (route : Option (List Nat)) : Prop :=
  ∀ path, route = some path → place path

/-- What is left of the running countdown after waits in the place were cancelled. -/
def Spared (place : List Nat → Prop) (route route' : Option (List Nat)) : Prop :=
  route' = route ∨ (route' = none ∧ RouteIn place route)

/-- How the running countdown changes where one may be `set` for the place: if one is, then it runs
or none does. -/
def Moves (place : List Nat → Prop) (set : Bool) (route route' : Option (List Nat)) : Prop :=
  match set with
  | true => RouteIn place route'
  | false => Spared place route route'

/-- The running countdown is the same or one of the place, or there is none. -/
def Shifted (place : List Nat → Prop) (route route' : Option (List Nat)) : Prop :=
  route' = route ∨ RouteIn place route'

section Places

variable {place place' : List Nat → Prop} {route route' route'' : Option (List Nat)}

theorem RouteIn.none : RouteIn place none := nofun

theorem RouteIn.mono (inside : RouteIn place route) (wider : ∀ path, place path → place' path) :
    RouteIn place' route :=
  fun path same => wider path (inside path same)

theorem Spared.refl (place : List Nat → Prop) (route : Option (List Nat)) :
    Spared place route route :=
  Or.inl rfl

theorem Spared.mono (spared : Spared place route route')
    (wider : ∀ path, place path → place' path) : Spared place' route route' :=
  spared.imp_right fun lost => ⟨lost.1, lost.2.mono wider⟩

theorem Spared.trans (spared : Spared place route route')
    (then_spared : Spared place route' route'') : Spared place route route'' := by
  rcases spared with rfl | ⟨rfl, inside⟩
  · exact then_spared
  · rcases then_spared with rfl | ⟨rfl, -⟩
    · exact Or.inr ⟨rfl, inside⟩
    · exact Or.inr ⟨rfl, inside⟩

theorem RouteIn.spared (inside : RouteIn place route) (spared : Spared place' route route') :
    RouteIn place route' := by
  rcases spared with rfl | ⟨rfl, -⟩
  · exact inside
  · exact .none

theorem Spared.shifted (spared : Spared place route route') : Shifted place route route' := by
  rcases spared with same | ⟨rfl, -⟩
  · exact Or.inl same
  · exact Or.inr .none

theorem Moves.mono {set : Bool} (moves : Moves place set route route')
    (wider : ∀ path, place path → place' path) : Moves place' set route route' := by
  cases set with
  | true => exact RouteIn.mono moves wider
  | false => exact Spared.mono moves wider

theorem Moves.trans {set set' : Bool} (moves : Moves place set route route')
    (then_moves : Moves place set' route' route'') : Moves place (set || set') route route'' := by
  cases set' with
  | true =>
    rw [Bool.or_true]
    exact then_moves
  | false =>
    rw [Bool.or_false]
    cases set with
    | true => exact RouteIn.spared moves then_moves
    | false => exact Spared.trans moves then_moves

theorem Moves.shifted {set : Bool} (moves : Moves place set route route') :
    Shifted place route route' := by
  cases set with
  | true => exact Or.inr moves
  | false => exact Spared.shifted moves

theorem Shifted.mono (shifted : Shifted place route route')
    (wider : ∀ path, place path → place' path) : Shifted place' route route' :=
  shifted.imp_right fun inside => inside.mono wider

theorem Shifted.trans (shifted : Shifted place route route')
    (then_shifted : Shifted place route' route'') : Shifted place route route'' := by
  rcases then_shifted with rfl | inside
  · exact shifted
  · exact Or.inr inside

/-- Threads with different numbers have no address in common. -/
theorem branch_unique {address path : List Nat} {i j : Nat} (here : address ++ [i] <+: path)
    (there : address ++ [j] <+: path) : i = j := by
  obtain ⟨deeper, rfl⟩ := here
  obtain ⟨deeper', same⟩ := there
  simp only [List.append_assoc, List.singleton_append, List.append_cancel_left_eq,
    List.cons.injEq] at same
  exact same.1.symm

end Places

namespace InMemory

/-- The route of the running countdown. -/
def route (m : InMemory) : Option (List Nat) := m.countdown.running.map (·.route)

/-- Neither service refuses, and `P` holds of the route of the running countdown. -/
structure Displays (P : Option (List Nat) → Prop) (m : InMemory) : Prop where
  willing : m.Willing
  route : P m.route

variable {P : Option (List Nat) → Prop}

theorem Displays.self {m : InMemory} (displays_route : Displays P m) : Displays (· = m.route) m :=
  ⟨displays_route.willing, rfl⟩

theorem displays_onReminders {α : Type} {call : ReminderBook → Except ServiceError α × ReminderBook}
    (grants : Grants ReminderBook.Willing call) : Grants (Displays P) (onReminders call) := by
  rintro m ⟨willing, route⟩
  obtain ⟨a, m', called, willing'⟩ := grants_onReminders grants m willing
  refine ⟨a, m', called, willing', ?_⟩
  have same : m'.countdown = m.countdown := by
    unfold onReminders at called
    rw [← (Prod.mk.inj called).2]
  rwa [InMemory.route, same]

theorem calm_displays : services.Calm (Displays P) where
  addReminder label r := displays_onReminders (ReminderBook.grants_add label r)
  removeReminder id := displays_onReminders (ReminderBook.grants_remove id)
  setPaused paused := displays_onReminders (ReminderBook.grants_setPaused paused)

theorem onCountdown_answer (next : CountdownBoard → CountdownBoard) {m : InMemory}
    (willing : m.Willing) : onCountdown (fun b => b.answer (next b)) m =
      (.ok (), { m with countdown := next m.countdown }) := by
  simp only [onCountdown, CountdownBoard.answer, willing.countdown]
  rfl

theorem startCountdown_leads (value : Int64) (unit : TimeUnit) (path : List Nat) :
    Leads (Displays P) (Displays (· = some path)) (services.startCountdown value unit path) := by
  rintro m ⟨willing, -⟩
  refine ⟨(), _, onCountdown_answer (fun b => { b with
    running := some ⟨unit.toSeconds value, path⟩, started := b.started + 1 }) willing, ?_, rfl⟩
  exact ⟨willing.reminders, willing.countdown⟩

theorem route_cancel (path : List Nat) (running : Option Countdown) :
    Spared (· = path) (running.map (·.route))
      ((running.filter (·.route ≠ path)).map (·.route)) := by
  cases running with
  | none => exact .refl _ _
  | some c =>
    by_cases here : c.route = path
    · right
      simp [here, Option.filter, RouteIn]
    · left
      simp [here, Option.filter]

theorem cancels_displays (place : List Nat → Prop) (route : Option (List Nat)) :
    services.Cancels (Displays (Spared place route)) place where
  toCalm := calm_displays
  cancelCountdown := by
    rintro path inside m ⟨willing, spared⟩
    refine ⟨(), _, onCountdown_answer (fun b => { b with
      running := b.running.filter (·.route ≠ path) }) willing, ?_, ?_⟩
    · exact ⟨willing.reminders, willing.countdown⟩
    · refine spared.trans ((route_cancel path m.countdown.running).mono ?_)
      rintro _ rfl
      exact inside

end InMemory

mutual

/-- Every wait that is current has its countdown set for the address of its sequence, and the
address of a thread is that of its group with the number of its branch. -/
def Execution.Routed : Execution → Prop
  | ⟨line, threads⟩ =>
    (∀ b s, line.current? = some b → b.activity = .sleep s → s.route = line.address) ∧
      allRouted line.address threads

def allRouted (address : List Nat) : List Thread → Prop
  | [] => True
  | ⟨branch, execution⟩ :: rest =>
    execution.address = address ++ [branch] ∧ execution.Routed ∧ allRouted address rest

end

theorem allRouted_forall (address : List Nat) (threads : List Thread) :
    allRouted address threads ↔
      ∀ t ∈ threads, t.execution.address = address ++ [t.branch] ∧ t.execution.Routed := by
  induction threads with
  | nil => simp [allRouted]
  | cons t rest ih =>
    obtain ⟨branch, execution⟩ := t
    simp [allRouted, ih, and_assoc]

theorem allRouted_cons (address : List Nat) (t : Thread) (rest : List Thread) :
    allRouted address (t :: rest) ↔
      (t.execution.address = address ++ [t.branch] ∧ t.execution.Routed) ∧
        allRouted address rest := by
  simp only [allRouted_forall, List.forall_mem_cons]

theorem allRouted_append (address : List Nat) (first second : List Thread) :
    allRouted address (first ++ second) ↔ allRouted address first ∧ allRouted address second := by
  simp only [allRouted_forall, List.forall_mem_append]

theorem allCountIn_append {place : List Nat → Prop} (first second : List Thread) :
    allCountIn place (first ++ second) ↔ allCountIn place first ∧ allCountIn place second := by
  induction first with
  | nil => simp [allCountIn]
  | cons t rest ih =>
    obtain ⟨branch, execution⟩ := t
    simp [allCountIn, ih, and_assoc]

namespace Execution

variable {e : Execution} {b : Block} {rest : List Block} {threads : List Thread}

theorem routed_iff : e.Routed ↔
    (∀ b s, e.current? = some b → b.activity = .sleep s → s.route = e.address) ∧
      allRouted e.address e.threads := by
  obtain ⟨line, threads⟩ := e
  rw [Routed]

theorem Routed.with_block {line : Sequence}
    (here : ∀ s, b.activity = .sleep s → s.route = line.address)
    (inside : allRouted line.address threads) :
    Routed ⟨{ line with ahead := b :: rest }, threads⟩ := by
  refine ⟨?_, inside⟩
  rintro c s ⟨⟩ activity
  exact here s activity

mutual

theorem Routed.countsIn {place : List Nat → Prop} : ∀ {e : Execution}, e.Routed →
    (∀ path, e.address <+: path → place path) → e.CountsIn place
  | ⟨line, threads⟩, routed, wider => by
    refine ⟨fun b current s activity _ => ?_, allCountIn_of_routed routed.2 wider⟩
    rw [routed.1 b s current activity]
    exact wider _ (List.prefix_refl _)

theorem allCountIn_of_routed {address : List Nat} {place : List Nat → Prop} :
    ∀ {threads : List Thread}, allRouted address threads →
      (∀ path, address <+: path → place path) → allCountIn place threads
  | [], _, _ => trivial
  | ⟨branch, execution⟩ :: rest, routed, wider => by
    refine ⟨routed.2.1.countsIn fun path inside => ?_, allCountIn_of_routed routed.2.2 wider⟩
    rw [routed.1] at inside
    exact wider path ((List.prefix_append address [branch]).trans inside)

end

mutual

/-- A countdown from elsewhere is of no use. -/
theorem Routed.endable_outside {route : Option (List Nat)} : ∀ {e : Execution}, e.Routed →
    RouteIn (fun path => ¬ e.address <+: path) route → e.endable route = e.endable none
  | ⟨line, threads⟩, routed, outside => by
    cases now : line.ahead with
    | nil => rw [endable_nil (e := ⟨line, threads⟩) now, endable_nil (e := ⟨line, threads⟩) now]
    | cons b rest =>
      have other : route ≠ some line.address := fun here =>
        outside line.address here (List.prefix_refl _)
      rw [endable_cons (e := ⟨line, threads⟩) now, endable_cons (e := ⟨line, threads⟩) now,
        endableThreads_outside routed.2 outside]
      simp [other]

theorem endableThreads_outside {address : List Nat} {route : Option (List Nat)} :
    ∀ {threads : List Thread}, allRouted address threads →
      RouteIn (fun path => ¬ address <+: path) route →
      endableThreads route threads = endableThreads none threads
  | [], _, _ => rfl
  | ⟨branch, execution⟩ :: rest, routed, outside => by
    have outside_here : RouteIn (fun path => ¬ execution.address <+: path) route := by
      intro path same inside
      rw [routed.1] at inside
      exact outside path same ((List.prefix_append address [branch]).trans inside)
    have here := routed.2.1.endable_outside outside_here
    rw [endableThreads, endableThreads, here, endableThreads_outside routed.2.2 outside]

end

end Execution

end Stepwise
