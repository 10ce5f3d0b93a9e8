import Stepwise.Proofs.Countdowns.Delivery
import Stepwise.Proofs.Countdowns.Routes.Runs

/-!
# Countdowns that others keep

A countdown goes on while sequences elsewhere are entered, take events or leave, until one of them
sets another countdown: what they cancel are countdowns of their own. This is so of every event but
that to skip a wait.
-/

namespace Stepwise

variable {c : Countdown} {n : Nat}

namespace InMemory

/-- Neither service refuses, and the countdown runs unless more than so many were set. -/
structure RunsOn (c : Countdown) (n : Nat) (m : InMemory) : Prop where
  willing : m.Willing
  started : n ≤ m.countdown.started
  running : m.countdown.started = n → m.countdown.running = some c

theorem runsOn_onReminders {α : Type} {call : ReminderBook → Except ServiceError α × ReminderBook}
    (grants : Grants ReminderBook.Willing call) : Grants (RunsOn c n) (onReminders call) := by
  intro m keeps
  obtain ⟨a, m', called, willing⟩ := grants_onReminders grants m keeps.willing
  have same : m'.countdown = m.countdown := by
    unfold onReminders at called
    rw [← (Prod.mk.inj called).2]
  refine ⟨a, m', called, willing, ?_, ?_⟩
  · rw [same]
    exact keeps.started
  · rw [same]
    exact keeps.running

theorem calm_runsOn : services.Calm (RunsOn c n) where
  addReminder label r := runsOn_onReminders (ReminderBook.grants_add label r)
  removeReminder id := runsOn_onReminders (ReminderBook.grants_remove id)
  setPaused paused := runsOn_onReminders (ReminderBook.grants_setPaused paused)

/-- Cancelling the countdown of another route leaves it running. -/
theorem cancels_runsOn : services.Cancels (RunsOn c n) (· ≠ c.route) where
  toCalm := calm_runsOn
  cancelCountdown := by
    intro path other m keeps
    refine ⟨(), _, onCountdown_answer (fun b => { b with
      running := b.running.filter (·.route ≠ path) }) keeps.willing, ?_, keeps.started, ?_⟩
    · exact ⟨keeps.willing.reminders, keeps.willing.countdown⟩
    · intro same
      show m.countdown.running.filter (·.route ≠ path) = some c
      rw [keeps.running same, Option.filter_some_eq_some]
      simpa using other.symm

theorem startCountdown_runsOn (value : Int64) (unit : TimeUnit) (path : List Nat) :
    Leads (RunsOn c n) (RunsOn c n) (services.startCountdown value unit path) := by
  intro m keeps
  refine ⟨(), _, onCountdown_answer (fun b => { b with
    running := some ⟨unit.toSeconds value, path⟩, started := b.started + 1 }) keeps.willing,
    ?_, Nat.le_succ_of_le keeps.started, ?_⟩
  · exact ⟨keeps.willing.reminders, keeps.willing.countdown⟩
  · exact fun same => absurd same (Nat.ne_of_gt (Nat.lt_succ_of_le keeps.started))

end InMemory

open InMemory (RunsOn)

section Starting

variable {address : List Nat} (outside : ¬ address <+: c.route)
include outside

/-- The addresses from this one on are not the route. -/
theorem route_apart (path : List Nat) (inside : address <+: path) : path ≠ c.route := by
  rintro rfl
  exact outside inside

theorem startThreads_runsOn {branches : List (List Template)}
    (enters : ∀ templates ∈ branches, ∀ address, ¬ address <+: c.route → ∀ w : World InMemory,
      RunsOn c n w.host → RunsOn c n
        (Execution.enter InMemory.services (startedThread address templates) w).world.host)
    {first : Nat} {started : List Thread} {join : Join} {w : World InMemory}
    (starting : join.Starting started first branches.length) (hooks : hooksSucceed started)
    (routed : allRouted address started) (keeps : RunsOn c n w.host) :
    RunsOn c n (startThreads InMemory.services (threadsFrom address first branches) started join
      w).world.host := by
  induction branches generalizing first started join w with
  | nil =>
    rw [threadsFrom, startThreads]
    exact keeps
  | cons templates rest ih =>
    have rest_enters := fun ts mem => enters ts (List.mem_cons_of_mem templates mem)
    have entering := enters templates List.mem_cons_self (address ++ [first])
      (fun inside => outside ((List.prefix_append address [first]).trans inside)) w keeps
    obtain ⟨e, v, entered, willing, at_e⟩ :=
      startedThread_lands InMemory.reliable (address ++ [first]) templates w keeps.willing
    have e_routed : (Execution.enter InMemory.services
        (startedThread (address ++ [first]) templates) w).part.Routed :=
      Execution.enter_routed rfl (Block.hooksSucceed_ofTemplates templates) keeps.willing
    have finished := at_e.finished
    rw [entered] at entering e_routed
    cases ran_out : e.finished with
    | false =>
      rw [startThreads_cons entered, ran_out]
      refine ih rest_enters (starting.keep e) ?_ ?_ entering
      · exact (hooksSucceed_append _ _).mpr ⟨hooks, at_e.hooks, trivial⟩
      · exact (allRouted_append _ _ _).mpr ⟨routed, at_e.address, e_routed, trivial⟩
    | true =>
      by_cases enough : join.completed + 1 = join.target
      · obtain ⟨u, cancelled, keeps'⟩ := cancelThreads_within InMemory.cancels_runsOn
          (Execution.allCountIn_of_routed routed (route_apart outside)) hooks entering
        rw [startThreads_joins starting entered ran_out enough cancelled rfl]
        exact keeps'
      · rw [startThreads_counts starting rfl entered ran_out enough]
        exact ih rest_enters (starting.count enough) hooks routed entering

end Starting

namespace Execution

variable {e : Execution} {b : Block} {rest : List Block} {w : World InMemory}

/-- Entering a sequence sets countdowns only for it and for its threads. -/
theorem enter_runsOn (running : e.isRunning = true) (hooks : ∀ c ∈ e.ahead, c.HooksSucceed)
    (outside : ¬ e.address <+: c.route) (keeps : RunsOn c n w.host) :
    RunsOn c n (e.enter InMemory.services w).world.host := by
  induction weight : blocksWeight e.ahead using Nat.strongRecOn generalizing e w with
  | ind m ih =>
  cases now : e.ahead with
  | nil =>
    obtain ⟨v, entered, keeps'⟩ := enter_nil InMemory.calm_runsOn now
      (Sequence.unfinished_of_running running) keeps
    rw [entered]
    exact keeps'
  | cons b rest =>
    rw [now] at hooks weight
    have succeed := hooks b List.mem_cons_self
    have rest_hooks : ∀ c ∈ rest, c.HooksSucceed := fun c h => hooks c (List.mem_cons_of_mem b h)
    have lighter (left : Block) {ahead : List Block} (less : blocksWeight ahead < m)
        (quiet : ∀ c ∈ ahead, c.HooksSucceed) {v : World InMemory} (keeps : RunsOn c n v.host) :
        RunsOn c n (Execution.enter InMemory.services ⟨e.advance left ahead, []⟩ v).world.host :=
      ih _ less running quiet outside keeps rfl
    have rest_lighter : blocksWeight rest < m := by
      have := b.weight_pos
      rw [blocksWeight_cons] at weight
      omega
    cases activity : b.activity with
    | task | condition | asked =>
      obtain ⟨handle, v, entered, keeps'⟩ := enter_still InMemory.calm_runsOn now
        (by simp [Block.Waits, activity]) (by simp [Block.sleep?, activity]) keeps
      rw [entered]
      exact keeps'
    | sleep s =>
      by_cases positive : 0 < s.value
      · obtain ⟨handle, s', v, entered, keeps', -⟩ := enter_asleep InMemory.calm_runsOn now activity
          positive (InMemory.startCountdown_runsOn s.value s.unit e.address) keeps
        rw [entered]
        exact keeps'
      · obtain ⟨left, v, entered, keeps', -⟩ :=
          enter_elapsed InMemory.calm_runsOn now activity positive succeed keeps
        rw [entered]
        exact lighter left rest_lighter rest_hooks keeps'
    | counted remaining entered body =>
      by_cases more : 0 < remaining
      · obtain ⟨left, next, v, entered', keeps', -, next_hooks, next_activity, -⟩ :=
          enter_pass InMemory.calm_runsOn now activity more succeed keeps
        have replaces := Replaces.pass activity more next_activity next_hooks rest_hooks
        rw [entered']
        refine lighter left ?_ replaces.hooks keeps'
        rw [← weight]
        exact weight_next_pass_lt activity more next_activity rest
      · obtain ⟨left, v, entered', keeps', -⟩ :=
          enter_exhausted InMemory.calm_runsOn now activity more succeed keeps
        rw [entered']
        exact lighter left rest_lighter rest_hooks keeps'
    | parallel join =>
      by_cases branchless : join.branches = []
      · obtain ⟨left, v, entered, keeps', -⟩ :=
          enter_branchless InMemory.calm_runsOn now activity branchless succeed keeps
        rw [entered]
        exact lighter left rest_lighter rest_hooks keeps'
      · obtain ⟨v, keeps_v, entered⟩ :=
          enter_group InMemory.calm_runsOn now activity branchless succeed keeps
        obtain ⟨counted, threads, u, run, -⟩ := startThreads_lands InMemory.reliable
          (fun templates _ => branch_starts InMemory.reliable e.address templates)
          (Join.starting_opened branchless) trivial keeps_v.willing
        have starts := startThreads_runsOn outside (n := n) (fun templates mem address apart w keeps =>
          ih _ (weight ▸ weight_startedThread_lt address activity mem rest) rfl
            (Block.hooksSucceed_ofTemplates templates) apart keeps rfl)
          (Join.starting_opened branchless) trivial trivial keeps_v
        rw [run] at starts
        obtain ⟨handle, w', keeps', outcome⟩ := entered _ InMemory.calm_runsOn _ _ _ u run starts
        rw [outcome]
        split
        · exact lighter _ rest_lighter rest_hooks keeps'
        · exact keeps'

/-- The current block leaves, which is not counting, with no threads left. -/
theorem leave_runsOn (running : e.isRunning = true) (idle : b.CountsIn (· ≠ c.route))
    (succeed : b.HooksSucceed) (none : e.threads = []) {ahead : List Block}
    (hooks : ∀ c ∈ ahead, c.HooksSucceed) (outside : ¬ e.address <+: c.route)
    (keeps : RunsOn c n w.host) :
    RunsOn c n (e.leave InMemory.services b ahead w).world.host := by
  obtain ⟨v, left, keeps'⟩ := leave_within (e := e) InMemory.cancels_runsOn idle
    (by rw [none]; trivial) succeed (by rw [none]; trivial) ahead keeps
  rw [left]
  exact enter_runsOn (e := ⟨e.advance b.ended ahead, []⟩) running hooks outside keeps'

/-- An event that skips no wait leaves the countdown of another place alone. -/
theorem dispatch_runsOn (settled : e.Settled) (quiet : e.HooksSucceed) (routed : e.Routed)
    {event : Event} (unskipped : event ≠ .skip) (path : List Nat)
    (outside : ¬ e.address <+: c.route) (keeps : RunsOn c n w.host) :
    RunsOn c n (e.dispatch InMemory.services event path w).world.host := by
  induction depth : path.length using Nat.strongRecOn generalizing e path w with
  | ind m ih =>
  subst depth
  refine dispatch_cases (motive := fun o => RunsOn c n o.world.host) path (fun _ => keeps) ?here
    ?thread
  case here =>
    intro b rest running now
    obtain ⟨-, ⟨d, ds, now', hosts⟩, -⟩ := (settled_iff e).mp settled
    obtain ⟨rfl, rfl⟩ := List.cons.inj (now.symm.trans now')
    obtain ⟨succeed, rest_hooks, -⟩ := quiet.at_cons now
    obtain ⟨reaction, b', v, reacted, same_host, heeds⟩ :=
      b.react_heeds InMemory.services unskipped w
    obtain ⟨_, _, _, reacted', -, succeed', fares⟩ :=
      b.react_ok InMemory.reliable hosts succeed event keeps.willing
    rw [reacted] at reacted'
    cases reacted'
    rw [← same_host] at keeps
    rw [reacted, Outcome.bind_ok]
    cases reaction with
    | stay => exact keeps
    | leave after =>
      refine leave_runsOn running (fun s asleep runs => ?_) succeed' fares.1
        (List.forall_mem_append.mpr ⟨fares.2, rest_hooks⟩) outside keeps
      exact (heeds.1 s asleep runs).elim
  case thread =>
    intro b rest join before t after further running now group threads shorter
    have mem : t ∈ e.threads := by simp [threads]
    obtain ⟨succeed, rest_hooks, threads_hooks⟩ := quiet.at_cons now
    have t_settled := ((settled_iff e).mp settled).2.2 t mem
    have t_quiet := (hooksSucceed_forall _).mp threads_hooks t mem
    obtain ⟨stands, t_routed⟩ := (allRouted_forall _ _).mp (routed_iff.mp routed).2 t mem
    have apart : ¬ t.execution.address <+: c.route := fun inside =>
      outside ((List.prefix_append e.address [t.branch]).trans (stands ▸ inside))
    obtain ⟨x, v, delivered, -, moved⟩ :=
      dispatch_becomes InMemory.reliable t_settled t_quiet event further keeps.willing
    have x_routed := dispatch_routed t_settled t_quiet t_routed event further keeps.willing
    have keeps_v := ih _ shorter t_settled t_quiet t_routed further apart keeps rfl
    rw [delivered] at x_routed keeps_v ⊢
    obtain ⟨join', ⟨left, -, waits⟩ | ⟨u, keeps_u, ends⟩⟩ := afterThread_routes
      InMemory.cancels_runsOn settled threads_hooks (routed_iff.mp routed).2 (route_apart outside) now
      group threads moved x_routed keeps_v
    · rw [Outcome.bind_ok, waits]
      exact keeps_v
    · rw [Outcome.bind_ok, ends]
      exact leave_runsOn (b := { b with activity := .parallel join' })
        (e := ⟨{ e.toSequence with ahead := _ :: rest }, []⟩) running nofun succeed rfl rest_hooks
        outside keeps_u

end Execution

end Stepwise
