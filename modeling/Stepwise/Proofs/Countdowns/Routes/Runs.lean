import Stepwise.Proofs.Countdowns.Landing
import Stepwise.Proofs.Routing

/-!
# The routes of the waits in a run

In every state of a run with a host that grants its requests, the waits of all threads have their
countdowns set for the addresses of these threads, whatever events came and whichever callbacks of
the host failed. So a thread that is cancelled stops no countdown but its own.
-/

namespace Stepwise

open InMemory (Displays)

/-- A wait that stays goes on with the countdown that it has. -/
theorem Block.react_route {σ : Type} (services : Services σ) {b b' : Block} {event : Event}
    {w w' : World σ} (reacted : b.react services event w = ⟨.ok .stay, b', w'⟩) {s' : Sleep}
    (asleep : b'.activity = .sleep s') : ∃ s, b.activity = .sleep s ∧ s'.route = s.route := by
  unfold react answer at reacted
  split at reacted
  · cases reacted
  · cases reacted
  · cases reacted
  · split at reacted <;> cases reacted
  · split at reacted <;> cases reacted
  · next activity =>
    cases reacted
    cases asleep
    exact ⟨_, activity, rfl⟩
  · cases reacted
  · split at reacted <;> cases reacted
  · cases reacted
    exact ⟨s', asleep, rfl⟩

namespace Execution

variable {e : Execution} {b : Block} {rest ahead : List Block} {w : World InMemory}

theorem enter_routed (running : e.isRunning = true) (hooks : ∀ c ∈ e.ahead, c.HooksSucceed)
    (willing : w.host.Willing) : (e.enter InMemory.services w).part.Routed := by
  obtain ⟨e', w', route', entered, -, lands⟩ := enter_board running hooks _ w ⟨willing, rfl⟩
  rw [entered]
  exact lands.routed

/-- The current block leaves, after its threads were cancelled. -/
theorem leave_routed (running : e.isRunning = true) (succeed : b.HooksSucceed)
    (quiet : hooksSucceed e.threads) (hooks : ∀ c ∈ ahead, c.HooksSucceed)
    (willing : w.host.Willing) : (e.leave InMemory.services b ahead w).part.Routed := by
  obtain ⟨v, left, willing_v⟩ := leave_ok InMemory.reliable succeed quiet ahead willing
  rw [left]
  exact enter_routed running hooks willing_v

/-- A thread of the group has become `x`. The group waits on with threads that have their own
routes, or it leaves without any. -/
theorem afterThread_routes {Good : InMemory → Prop} {place : List Nat → Prop}
    (cancels : InMemory.services.Cancels Good place) {join : Join} {before after : List Thread}
    {t : Thread} {x : Execution} (settled : e.Settled) (quiet : hooksSucceed e.threads)
    (routed : allRouted e.address e.threads) (below : ∀ path, e.address <+: path → place path)
    (now : e.ahead = b :: rest) (group : b.join? = some join)
    (threads : e.threads = before ++ t :: after) (moved : t.execution.Becomes x)
    (x_routed : x.Routed) (good : Good w.host) :
    ∃ join', (∃ left, allRouted e.address left ∧
        e.afterThread InMemory.services b rest join before after { t with execution := x } w =
          ⟨.ok (), ⟨{ e.toSequence with
            ahead := { b with activity := .parallel join' } :: rest }, left⟩, w⟩) ∨
      ∃ v, Good v.host ∧
        e.afterThread InMemory.services b rest join before after { t with execution := x } w =
          Execution.leave InMemory.services { b with activity := .parallel join' } rest
            ⟨{ e.toSequence with ahead := { b with activity := .parallel join' } :: rest }, []⟩ v := by
  obtain ⟨-, ⟨c, cs, now', hosts⟩, -⟩ := (settled_iff e).mp settled
  obtain ⟨rfl, rfl⟩ := List.cons.inj (now.symm.trans now')
  obtain ⟨activity, is_open⟩ := join_open hosts group
  rw [threads] at is_open quiet routed
  rw [hooksSucceed_append, hooksSucceed_cons] at quiet
  rw [allRouted_append, allRouted_cons] at routed
  obtain ⟨front, ⟨stands, -⟩, back⟩ := routed
  have others := (allRouted_append e.address before after).mpr ⟨front, back⟩
  cases finished : x.finished with
  | false =>
    refine ⟨join, Or.inl ⟨before ++ { t with execution := x } :: after, ?_, ?_⟩⟩
    · exact (allRouted_append _ _ _).mpr
        ⟨front, (allRouted_cons _ _ _).mpr ⟨⟨moved.address.trans stands, x_routed⟩, back⟩⟩
    · rw [afterThread_runs finished, ← activity, ← now]
  | true =>
    by_cases enough : join.completed + 1 = join.target
    · obtain ⟨v, cancelled, good_v⟩ := cancelThreads_within cancels
        (allCountIn_of_routed others below) ((hooksSucceed_append _ _).mpr ⟨quiet.1, quiet.2.2⟩) good
      have completed := Join.complete_ends (is_open.ends_iff.mpr enough) is_open.undone cancelled
      refine ⟨{ join with completed := join.completed + 1, done := true }, Or.inr ⟨v, good_v, ?_⟩⟩
      simp only [afterThread, finished, if_true, completed, Outcome.bind]
    · exact ⟨_, Or.inl ⟨_, others, afterThread_stays finished is_open enough⟩⟩

theorem dispatch_routed (settled : e.Settled) (quiet : e.HooksSucceed) (routed : e.Routed)
    (event : Event) (path : List Nat) (willing : w.host.Willing) :
    (e.dispatch InMemory.services event path w).part.Routed := by
  induction depth : path.length using Nat.strongRecOn generalizing e path w with
  | ind n ih =>
  subst depth
  refine dispatch_cases (motive := fun o => o.part.Routed) path (fun _ => routed) ?here ?thread
  case here =>
    intro b rest running now
    obtain ⟨-, ⟨c, cs, now', hosts⟩, -⟩ := (settled_iff e).mp settled
    obtain ⟨rfl, rfl⟩ := List.cons.inj (now.symm.trans now')
    obtain ⟨succeed, rest_hooks, threads_hooks⟩ := quiet.at_cons now
    obtain ⟨here, inside⟩ := routed_iff.mp routed
    obtain ⟨reaction, b', v, reacted, willing_v, succeed', fares⟩ :=
      b.react_ok InMemory.reliable hosts succeed event willing
    rw [reacted, Outcome.bind_ok]
    cases reaction with
    | stay =>
      refine .with_block (fun s' asleep => ?_) inside
      obtain ⟨s, was_asleep, same⟩ := b.react_route InMemory.services reacted asleep
      rw [same]
      exact here b s (by rw [Sequence.current?, now, List.head?_cons]) was_asleep
    | leave after =>
      exact leave_routed running succeed' threads_hooks
        (List.forall_mem_append.mpr ⟨fares.2, rest_hooks⟩) willing_v
  case thread =>
    intro b rest join before t after further running now group threads shorter
    have mem : t ∈ e.threads := by simp [threads]
    have t_settled := ((settled_iff e).mp settled).2.2 t mem
    have t_quiet := (hooksSucceed_forall _).mp (quiet.at_cons now).2.2 t mem
    have t_routed := ((allRouted_forall _ _).mp (routed_iff.mp routed).2 t mem).2
    obtain ⟨x, v, delivered, willing_v, moved⟩ :=
      dispatch_becomes InMemory.reliable t_settled t_quiet event further willing
    have x_routed := ih _ shorter t_settled t_quiet t_routed further willing rfl
    obtain ⟨succeed, rest_hooks, threads_hooks⟩ := quiet.at_cons now
    rw [delivered] at x_routed ⊢
    obtain ⟨join', ⟨left, left_routed, waits⟩ | ⟨u, willing_u, ends⟩⟩ := afterThread_routes
      (InMemory.reliable.cancels fun _ => True) settled threads_hooks (routed_iff.mp routed).2
      (fun _ _ => trivial) now group threads moved x_routed willing_v
    · rw [Outcome.bind_ok, waits]
      exact .with_block nofun left_routed
    · rw [Outcome.bind_ok, ends]
      exact leave_routed running succeed trivial rest_hooks willing_u

/-- The threads with which a group arrives. -/
theorem arrive_routed (b : Block) (address : List Nat) (willing : w.host.Willing) :
    allRouted address (Block.arrive InMemory.services address b w).part.2 := by
  cases activity : b.activity with
  | task | condition | asked =>
    rw [Block.arrive, activity]
    trivial
  | counted remaining entered body =>
    rw [Block.arrive_counted InMemory.services address w activity]
    split
    · trivial
    · trivial
  | sleep s =>
    by_cases positive : 0 < s.value
    · rw [Block.arrive_asleep InMemory.services address w activity positive]
      trivial
    · rw [Block.arrive_elapsed InMemory.services address w activity positive]
      trivial
  | parallel join =>
    by_cases branchless : join.branches = []
    · rw [Block.arrive_branchless InMemory.services address w activity branchless]
      trivial
    · have willing' : (w.noteOpened join.branches).host.Willing := by
        rwa [World.host_noteOpened]
      obtain ⟨counted, threads, v, run, -, ended, -⟩ := startThreads_lands InMemory.reliable
        (fun templates _ => branch_starts InMemory.reliable address templates)
        (Join.starting_opened branchless) trivial willing'
      obtain ⟨_, _, _, _, run', -, -, stays⟩ := startThreads_board
        (fun templates _ address => enter_board (e := startedThread address templates) rfl
          (Block.hooksSucceed_ofTemplates templates))
        (Join.starting_opened branchless) trivial trivial ⟨willing', rfl⟩
      rw [run] at run'
      cases run'
      rw [Block.arrive_group InMemory.services address w activity branchless, Join.threads, run]
      show allRouted address threads
      by_cases enough : join.opened.target ≤ join.opened.completed + instantBranches join.branches
      · rw [(ended enough).2]
        trivial
      · obtain ⟨-, new, rfl, landed⟩ := stays (Nat.not_le.mp enough)
        exact landed.routed

theorem enter_threads_routed (e : Execution) (running : e.isRunning = true)
    (none : e.threads = []) (willing : w.host.Willing) :
    allRouted e.address (e.enter InMemory.services w).part.threads := by
  induction e using enter_induction generalizing w with
  | nil e now =>
    have unfinished : e.finished = false := Sequence.unfinished_of_running running
    obtain ⟨v, entered, -⟩ := enter_nil InMemory.reliable.calm now unfinished willing
    rw [entered]
    trivial
  | cons e b rest now goes_on _ =>
    obtain ⟨handle, v, willing_v, entered⟩ := enter_cons InMemory.reliable.calm now willing
    obtain ⟨leaves, arrived, threads, u, arrives, willing_u, -⟩ :=
      arrive_staffed InMemory.reliable { b with handle } e.address willing_v
    have routed := arrive_routed { b with handle } e.address willing_v
    rw [arrives] at routed
    rw [entered, arrives, Outcome.bind_ok]
    cases leaves with
    | false => exact routed
    | true =>
      have willing_left :=
        arrived.leave_good (w := e.noteEntered arrived u) InMemory.reliable willing_u
      refine Outcome.bind_left (P := fun (x : Execution) _ => allRouted e.address x.threads) trivial
        fun _ _ => ?_
      exact goes_on _ handle running rfl willing_left

theorem leave_threads_routed (running : e.isRunning = true) (quiet : hooksSucceed e.threads)
    (willing : w.host.Willing) :
    allRouted e.address (e.leave InMemory.services b ahead w).part.threads := by
  obtain ⟨v, cancelled, willing_v⟩ := cancelThreads_ok InMemory.reliable quiet willing
  have willing_left := b.leave_good InMemory.reliable willing_v
  rw [leave, cancelled, Outcome.bind_ok]
  refine Outcome.bind_left (P := fun (x : Execution) _ => allRouted e.address x.threads) trivial
    fun _ _ => ?_
  exact enter_threads_routed ⟨e.advance _ ahead, []⟩ running rfl willing_left

theorem dispatch_threads_routed (staffed : e.Staffed) (routed : allRouted e.address e.threads)
    (event : Event) (path : List Nat) (willing : w.host.Willing) :
    allRouted e.address (e.dispatch InMemory.services event path w).part.threads := by
  refine dispatch_cases (motive := fun o => allRouted e.address o.part.threads) path
    (fun _ => routed) ?here ?thread
  case here =>
    intro b rest running now
    obtain ⟨reaction, b', v, reacted, willing_v, group⟩ :=
      react_stands InMemory.reliable b event willing
    rw [reacted, Outcome.bind_ok]
    cases reaction with
    | stay => exact routed
    | leave after =>
      refine leave_threads_routed running ?_ willing_v
      by_cases none : e.threads = []
      · rw [none]
        trivial
      · exact (staffed.threads none).2
  case thread =>
    intro b rest join before t after further running now group threads _
    obtain ⟨settled, quiet⟩ := staffed.threads (by simp [threads])
    have mem : t ∈ e.threads := by simp [threads]
    have t_settled := ((settled_iff e).mp settled).2.2 t mem
    have t_quiet := (hooksSucceed_forall _).mp quiet t mem
    have t_routed := ((allRouted_forall _ _).mp routed t mem).2
    obtain ⟨x, v, delivered, willing_v, moved⟩ :=
      dispatch_becomes InMemory.reliable t_settled t_quiet event further willing
    have x_routed := dispatch_routed t_settled t_quiet t_routed event further willing
    rw [delivered] at x_routed ⊢
    obtain ⟨join', ⟨left, left_routed, waits⟩ | ⟨u, willing_u, ends⟩⟩ := afterThread_routes
      (InMemory.reliable.cancels fun _ => True) settled quiet routed (fun _ _ => trivial) now group
      threads moved x_routed willing_v
    · rw [Outcome.bind_ok, waits]
      exact left_routed
    · rw [Outcome.bind_ok, ends]
      exact leave_threads_routed (e := ⟨{ e.toSequence with ahead := _ :: rest }, []⟩) running trivial
        willing_u

theorem Routed.thread? {path : List Nat} {x : Execution} (routed : e.Routed)
    (found : e.thread? path = some x) : x.Routed := by
  induction path generalizing e with
  | nil =>
    cases found
    exact routed
  | cons branch path ih =>
    obtain ⟨t, mem, -, -, inside⟩ := thread?_found found
    exact ih ((allRouted_forall _ _).mp (routed_iff.mp routed).2 t mem).2 inside

end Execution

namespace Run

variable {r : Run InMemory}

/-- The waits of all threads have the routes of their threads. -/
def ThreadsRouted (r : Run InMemory) : Prop := allRouted r.root.address r.root.threads

theorem Living.routed_perform (living : r.Living InMemory.Willing) (routed : r.ThreadsRouted)
    (call : Call) : (r.perform InMemory.services call).ThreadsRouted := by
  have address : (r.perform InMemory.services call).root.address = r.root.address :=
    (perform_evolves InMemory.services living.inOrder call).grows.line.address
  rw [ThreadsRouted, address]
  cases call with
  | start =>
    simp only [perform, start]
    cases started : r.root.started with
    | true => exact routed
    | false =>
      obtain ⟨unfinished, uncancelled, none⟩ := living.inOrder.unstarted started
      have entered (handle : Option Nat) (w : World InMemory) (willing : w.host.Willing) :
          allRouted r.root.address (Execution.enter InMemory.services
            { r.root with started := true, handle } w).part.threads := by
        refine Execution.enter_threads_routed { r.root with started := true, handle } ?_ none willing
        simp [Sequence.isRunning, unfinished, uncancelled]
      simp only [Bool.false_eq_true, if_false, ofOutcome, begin]
      split
      · next reminder description _ _ =>
        obtain ⟨id, v, added, willing⟩ :=
          World.addReminder_ok InMemory.reliable.calm description reminder living.good
        rw [added]
        exact entered (some id) v willing
      · exact entered r.root.handle r.world living.good
  | dispatch path event =>
    exact Execution.dispatch_threads_routed living.staffed routed event path living.good
  | push block => exact routed
  | splice blocks =>
    rw [perform, splice, Sequence.splice_eq]
    exact routed
  | requestPause => exact routed
  | releasePause token => exact routed

theorem Fresh.routed_after {blocks : List HostBlock} (fresh : r.Fresh blocks)
    (willing : r.world.host.Willing) (calls : List Call) :
    (r.after InMemory.services calls).ThreadsRouted := by
  have step (r : Run InMemory) (call : Call)
      (h : r.Living InMemory.Willing ∧ r.ThreadsRouted) :
      (r.perform InMemory.services call).Living InMemory.Willing ∧
        (r.perform InMemory.services call).ThreadsRouted :=
    ⟨living_perform InMemory.reliable r call h.1, h.1.routed_perform h.2 call⟩
  have first : r.ThreadsRouted := by
    obtain ⟨description, reminder, root⟩ := fresh.root
    rw [ThreadsRouted, root]
    trivial
  exact (after_induction InMemory.services (fun r call (_ : True) => step r call)
    ⟨fresh.living_after InMemory.reliable willing [], first⟩ calls fun _ _ => trivial).2

/-- A thread waits for an event, its callbacks succeed, and its waits have the routes of its own. -/
theorem ThreadsRouted.thread? {path : List Nat} {x : Execution} (routed : r.ThreadsRouted)
    (living : r.Living InMemory.Willing) (found : r.root.thread? path = some x) (inner : path ≠ []) :
    x.Settled ∧ x.HooksSucceed ∧ x.Routed := by
  obtain ⟨branch, deeper, rfl⟩ := List.exists_cons_of_ne_nil inner
  obtain ⟨t, mem, -, -, inside⟩ := Execution.thread?_found found
  obtain ⟨settled, quiet⟩ := living.staffed.threads (List.ne_nil_of_mem mem)
  exact ⟨settled.thread? found, ((hooksSucceed_forall _).mp quiet t mem).thread? inside,
    ((allRouted_forall _ _).mp routed t mem).2.thread? inside⟩

end Run

end Stepwise
