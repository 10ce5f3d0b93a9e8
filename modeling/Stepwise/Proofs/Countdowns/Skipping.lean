import Stepwise.Proofs.Branches.Runs
import Stepwise.Proofs.Countdowns.Keeping
import Stepwise.Proofs.Countdowns.Minding.Delivery
import Stepwise.Proofs.Countdowns.Sessions
import Stepwise.Proofs.Repetition

/-!
# Waits that are skipped

The countdown that runs for the wait of one thread goes on while other threads take events, unless
that wait is cancelled or another countdown is set. It is not so where one of the others skips a
wait: the request to end the countdown early names no route, as that to cancel it does, and ends
whichever countdown runs. The thread that it was set for is left as it was, and goes on to wait
without one.
-/

namespace Stepwise

namespace Execution

variable {e x : Execution} {b : Block} {rest : List Block} {s : Sleep} {path : List Nat}
  {w : World InMemory}

theorem Settled.asleep_threadless (settled : e.Settled) (now : e.ahead = b :: rest)
    (activity : b.activity = .sleep s) : e.threads = [] := by
  obtain ⟨-, ⟨c, cs, now', hosts⟩, -⟩ := (settled_iff e).mp settled
  obtain ⟨rfl, rfl⟩ := List.cons.inj (now.symm.trans now')
  simp only [Block.Hosts, activity] at hosts
  exact hosts.2

/-- The first request of a wait that is skipped is to end the countdown early. -/
theorem skip_forces (running : x.isRunning = true) (now : x.ahead = b :: rest)
    (activity : b.activity = .sleep s) (willing : w.host.Willing) :
    .asked .forceFinish (.ok ()) :: w.journal <:+
      (x.dispatch InMemory.services .skip [] w).world.journal := by
  obtain ⟨v, forced, -⟩ := World.ask_ok InMemory.reliable.forceFinish .forceFinish willing
  have journal : v.journal = .asked .forceFinish (.ok ()) :: w.journal := by
    obtain ⟨a, host, called, -⟩ := InMemory.reliable.forceFinish w.host willing
    simp only [World.ask, called, Prod.mk.injEq] at forced
    rw [← forced.2]
  have reacted : b.react InMemory.services .skip w =
      ⟨.ok (.leave []), { b with activity := .sleep { s with remaining := .zero } }, v⟩ := by
    simp only [Block.react, activity, World.forceFinish, forced]
  rw [dispatch_here running now, reacted, Outcome.bind_ok, ← journal]
  exact (leave_onward x _ _ v : Onward (fun _ => True) _ _).suffix

/-- After a wait was skipped, a countdown runs only if one was set in the same call. -/
theorem skip_empties (carries : e.Carries InMemory.services path x) (running : x.isRunning = true)
    (now : x.ahead = b :: rest) (activity : b.activity = .sleep s) (willing : w.host.Willing)
    (unset : (e.dispatch InMemory.services .skip path w).world.host.countdown.started =
      w.host.countdown.started) :
    (e.dispatch InMemory.services .skip path w).world.host.countdown.running = none := by
  have forced := skip_forces running now activity willing
  have further := (carries.onward (fun _ => True) .skip [] w).suffix
  rw [List.append_nil] at further
  obtain ⟨later, split⟩ := forced.trans further
  obtain ⟨new, journal, board, -⟩ : w.Changes (fun _ => True) (fun _ => True)
      (e.dispatch InMemory.services .skip path w).world :=
    dispatch_changes (fun _ _ => trivial) (e.within_all fun _ => trivial) .skip path w
  obtain rfl : new = later ++ [.asked .forceFinish (.ok ())] := by
    rw [← split, List.append_cons] at journal
    exact (List.append_cancel_right journal).symm
  rw [List.foldr_append] at board
  rw [board] at unset ⊢
  exact empty_replayed rfl unset

end Execution

namespace Session

theorem wait_without_countdown {s : Session} (none : s.run.world.host.countdown.running = none)
    (now : Int) : s.apply .wait now = s.passOver [.warning "No countdown is running"] := by
  simp only [apply, wait, CountdownBoard.elapse, none, Option.map_none]

end Session

namespace Run

variable {r : Run InMemory} {blocks : List HostBlock} {path : List Nat} {event : Event}
  {c : Countdown}

/-- An event for one wait leaves another one where it is, unless it cancels that. -/
theorem Rooted.stays_beside (rooted : r.Rooted InMemory.Willing)
    (asleep : r.root.sleepsAt path = true) (waiting : r.root.sleepsAt c.route = true)
    (other : c.route ≠ path)
    (spared : ¬ r.Cancels InMemory.services c.route (.dispatch path event)) :
    ∃ y, r.root.thread? c.route = some y ∧
      Execution.StaysBeside InMemory.services event c.route path r.world r.root y
        (r.root.dispatch InMemory.services event path r.world) := by
  obtain ⟨-, x, -, -, -, found, -⟩ := Execution.sleepsAt_iff.mp asleep
  obtain ⟨-, y, b, rest, s, waiting, now, activity⟩ := Execution.sleepsAt_iff.mp waiting
  have some_thread : r.root.threads ≠ [] := by
    intro none
    obtain ⟨at_root, -⟩ := Execution.thread?_threadless none found
    obtain ⟨at_root', -⟩ := Execution.thread?_threadless none waiting
    exact other (at_root'.trans at_root.symm)
  obtain ⟨settled, quiet⟩ := rooted.staffed.threads some_thread
  have aside : ¬ c.route <+: path := by
    rintro ⟨deeper, rfl⟩
    rw [Execution.thread?_append, waiting, Option.bind_some] at found
    have threadless := (settled.thread? waiting).asleep_threadless now activity
    obtain ⟨rfl, -⟩ := Execution.thread?_threadless threadless found
    exact other (List.append_nil _).symm
  exact ⟨y, waiting, (Execution.thread?_beside InMemory.reliable settled quiet waiting event aside
    rooted.good).resolve_right fun ends => spared ⟨path, event, rfl, ends⟩⟩

/-- Its countdown goes on, unless the event skips a wait or sets another one. -/
theorem Rooted.runs_on_beside {y : Execution} (rooted : r.Rooted InMemory.Willing)
    (routed : r.ThreadsRouted) (counting : r.world.host.countdown.running = some c)
    (unskipped : event ≠ .skip)
    (stays : Execution.StaysBeside InMemory.services event c.route path r.world r.root y
      (r.root.dispatch InMemory.services event path r.world))
    (unset : (r.perform InMemory.services (.dispatch path event)).world.host.countdown.started =
      r.world.host.countdown.started) :
    (r.perform InMemory.services (.dispatch path event)).world.host.countdown.running = some c := by
  obtain ⟨-, ⟨notice, passed⟩ | ⟨outer, branch, inner, side, deeper, s, route, rfl, differs, at_s,
    came⟩⟩ := stays
  · exact (congrArg (·.host.countdown.running) passed).trans counting
  · obtain ⟨settled, quiet, s_routed⟩ := routed.thread? rooted.toLiving at_s (by simp)
    have apart : ¬ s.address <+: c.route := by
      rw [rooted.address_thread at_s, route, List.prefix_append_right_inj]
      exact fun around => differs (List.cons_prefix_cons.mp around).1
    have before : InMemory.RunsOn c r.world.host.countdown.started r.world.host :=
      ⟨rooted.good, Nat.le_refl _, fun _ => counting⟩
    have keeps := Execution.dispatch_runsOn settled quiet s_routed unskipped deeper apart before
    rw [← came] at keeps
    exact keeps.running unset

/-- The countdown of a wait goes on while another wait takes an event that neither cancels the first
one nor sets a countdown, and ends the wait afterwards. Only where the other wait is skipped, it is
stopped, and there is nothing left to end the first one by. -/
theorem countdown_stopped_iff_skipped (fresh : r.Fresh blocks) (willing : r.world.host.Willing)
    (calls : List Call)
    (asleep : (r.after InMemory.services calls).root.sleepsAt path = true)
    (counting : (r.after InMemory.services calls).world.host.countdown.running = some c)
    (waiting : (r.after InMemory.services calls).root.sleepsAt c.route = true)
    (other : c.route ≠ path)
    (spared : ¬ (r.after InMemory.services calls).Cancels InMemory.services c.route
      (.dispatch path event))
    (unset : ((r.after InMemory.services calls).perform InMemory.services
        (.dispatch path event)).world.host.countdown.started =
      (r.after InMemory.services calls).world.host.countdown.started) :
    let later := (r.after InMemory.services calls).perform InMemory.services (.dispatch path event)
    later.root.thread? c.route = (r.after InMemory.services calls).root.thread? c.route ∧
      later.world.host.countdown.running = (if event = .skip then none else some c) ∧
      ∀ s : Session, s.run = later → ∀ now, (s.apply .wait now).session =
        if event = .skip then (s.passOver [.warning "No countdown is running"]).session
        else (s.call now (later.elapse.dispatch InMemory.services c.route .elapsed)).session := by
  intro later
  have rooted : (r.after InMemory.services calls).Rooted InMemory.Willing :=
    fresh.rooted_after InMemory.reliable willing calls
  obtain ⟨y, found_y, stays⟩ := rooted.stays_beside asleep waiting other spared
  refine ⟨stays.1.trans found_y.symm, ?_⟩
  by_cases skipped : event = .skip
  · subst skipped
    obtain ⟨running, x, b, rest, s, found, now, activity⟩ := Execution.sleepsAt_iff.mp asleep
    have stopped : later.world.host.countdown.running = none :=
      Execution.skip_empties (rooted.carries found) (rooted.thread_runs running found).1 now activity
        rooted.good unset
    simp only [if_true]
    refine ⟨stopped, fun s same now => ?_⟩
    rw [Session.wait_without_countdown (same ▸ stopped)]
  · have goes_on : later.world.host.countdown.running = some c :=
      rooted.runs_on_beside (fresh.routed_after willing calls) counting skipped stays unset
    simp only [if_neg skipped]
    refine ⟨goes_on, fun s same now => ?_⟩
    rw [← same] at goes_on ⊢
    exact Session.run_wait (by rw [InMemory.route, goes_on, Option.map_some]) now

/-- A thread of the root goes on while the group there needs more than one thread. -/
theorem not_cancels_of_short {branch : Nat} {call : Call} (short : ∀ b ∈ r.root.current?,
    ∀ join ∈ b.join?, join.completed + 1 ≠ join.target) :
    ¬ r.Cancels InMemory.services [branch] call := by
  rintro ⟨target, event, -, outer, i, inner, j, deeper, z, split, -, -, at_z, ends⟩
  obtain ⟨b, rest, join, -, -, -, -, group, -, -, -, enough⟩ := ends
  cases outer with
  | nil =>
    cases at_z
    refine short b ?_ join ?_ enough
    · rw [Sequence.current?, group.now, List.head?_cons]
      rfl
    · rw [Block.join?, group.activity]
      rfl
  | cons k outer => simp at split

/-- Two waits of a group that needs both. -/
def twoTeas : Workflow :=
  ⟨"tea", none, none,
    [.parallel "steep" 2 [[.sleep 5 .minutes "green" false], [.sleep 9 .minutes "black" false]]]⟩

/-- The countdown of the second wait goes on when the first one elapses, but not when it is skipped.
-/
theorem countdown_stopped_iff_skipped_twoTeas :
    let now := (ofWorkflow twoTeas InMemory.empty).after InMemory.services [.start]
    let later := fun event => now.perform InMemory.services (.dispatch [0] event)
    now.world.host.countdown.running = some ⟨540, [1]⟩ ∧
      ((later .elapsed).root.thread? [0] = none ∧
        (later .elapsed).world.host.countdown.running = some ⟨540, [1]⟩) ∧
      (later .skip).root.thread? [0] = none ∧
        (later .skip).world.host.countdown.running = none := by
  intro now later
  have counting : now.world.host.countdown.running = some ⟨540, [1]⟩ := by decide +kernel
  have gives (event : Event) (unset : (later event).world.host.countdown.started =
      now.world.host.countdown.started) : (later event).world.host.countdown.running =
        if event = .skip then none else some ⟨540, [1]⟩ :=
    (countdown_stopped_iff_skipped (c := ⟨540, [1]⟩) (fresh_ofWorkflow _ _) InMemory.willing_empty
      [.start] (by decide +kernel) counting (by decide +kernel) (by decide)
      (not_cancels_of_short (by decide +kernel)) unset).2.1
  exact ⟨counting, ⟨by decide +kernel, gives .elapsed (by decide +kernel)⟩, by decide +kernel,
    gives .skip (by decide +kernel)⟩

/-- In a session the second wait is left without a countdown then, and waiting does not end it. -/
theorem twoTeas_stopped :
    let s := ((Session.ofWorkflow { Options.default with skipSleep := true } .none twoTeas).start
      0).session
    let later := (s.apply (.event [0] .skip) 1).session
    s.run.world.host.countdown.running = some ⟨540, [1]⟩ ∧
      later.run.world.host.countdown.started = s.run.world.host.countdown.started ∧
      later.run.root.sleepsAt [1] = true ∧
      later.run.world.host.countdown.running = none ∧
      (later.apply .wait 2).output = [.warning "No countdown is running"] := by
  decide +kernel

end Run

end Stepwise
