import Stepwise.Proofs.Journal
import Stepwise.Proofs.Living
import Stepwise.Proofs.Paths
import Stepwise.Status

/-!
# Addresses, routes and events

The address of a thread is the path that leads to it. The same path is shown in snapshots, given
with countdowns, printed in the status text and read back from commands, and an event for it is an
event for the current block of that thread. Where a path leads nowhere, the event is passed over.
-/

namespace Stepwise

variable {σ : Type} {Good : σ → Prop} {services : Services σ}

/-- The snapshot shows another one at a path of branch numbers. -/
inductive Snapshot.Shows : Snapshot → List Nat → Snapshot → Prop
  | root {s : Snapshot} : s.Shows [] s
  | thread {s shown : Snapshot} {path : List Nat} {view : ThreadView} (mem : view ∈ s.threads)
      (inside : view.execution.Shows path shown) : s.Shows (view.branch :: path) shown

theorem snapshots_eq (threads : List Thread) :
    snapshots threads = threads.map fun t => ⟨t.branch, t.execution.snapshot⟩ := by
  induction threads with
  | nil => rfl
  | cons t rest ih =>
    obtain ⟨branch, execution⟩ := t
    rw [snapshots, ih, List.map_cons]

theorem mem_threadLines {views : List ThreadView} {view : ThreadView} (mem : view ∈ views)
    (indent : String) :
    (indent ++ "  @" ++ pathText view.execution.address ++ ":") ∈ threadLines indent views ∧
      ∀ line ∈ view.execution.lines (indent ++ "    "), line ∈ threadLines indent views := by
  induction views with
  | nil => cases mem
  | cons first rest ih =>
    obtain ⟨branch, execution⟩ := first
    rw [threadLines]
    rcases List.mem_cons.mp mem with rfl | mem
    · refine ⟨List.mem_cons_self, fun line inside => ?_⟩
      exact List.mem_cons_of_mem _ (List.mem_append_left _ inside)
    · obtain ⟨header, lines⟩ := ih mem
      refine ⟨?_, fun line inside => ?_⟩
      · exact List.mem_cons_of_mem _ (List.mem_append_right _ header)
      · exact List.mem_cons_of_mem _ (List.mem_append_right _ (lines line inside))

namespace Execution

variable {e x : Execution} {path : List Nat}

theorem Settled.snapshot (settled : e.Settled) :
    (∃ current, e.snapshot.current = some current) ∧
      e.snapshot.threads = e.threads.map fun t => ⟨t.branch, t.execution.snapshot⟩ := by
  have unfinished := settled.unfinished
  obtain ⟨-, ⟨b, rest, now, -⟩, -⟩ := (settled_iff e).mp settled
  obtain ⟨line, threads⟩ := e
  have visible : line.visible? = some b := by
    simp_all [Sequence.visible?, Sequence.current?]
  constructor
  · simp only [Execution.snapshot, visible, Option.map_some]
    exact ⟨_, rfl⟩
  · simp only [Execution.snapshot, visible, Option.isSome_some, if_true, snapshots_eq]

theorem snapshot_threadless (none : e.threads = []) : e.snapshot.threads = [] := by
  obtain ⟨line, threads⟩ := e
  cases none
  simp only [Execution.snapshot, snapshots, ite_self]

theorem snapshot_address (e : Execution) : e.snapshot.address = e.address := by
  obtain ⟨line, threads⟩ := e
  rw [Execution.snapshot]

/-- A snapshot shows the threads, each at its path. -/
theorem Settled.shows_iff (settled : e.Settled) (addressed : e.Addressed) (path : List Nat)
    (shown : Snapshot) :
    e.snapshot.Shows path shown ↔ ∃ x, e.thread? path = some x ∧ shown = x.snapshot := by
  induction path generalizing e with
  | nil =>
    constructor
    · rintro ⟨⟩
      exact ⟨e, rfl, rfl⟩
    · rintro ⟨x, found, rfl⟩
      cases found
      exact .root
  | cons branch path ih =>
    have others := ((settled_iff e).mp settled).2.2
    have numbered := addressed_iff.mp addressed
    have threads := settled.snapshot.2
    constructor
    · intro shows
      cases shows with
      | thread mem inside =>
        rw [threads] at mem
        obtain ⟨t, t_mem, rfl⟩ := List.mem_map.mp mem
        obtain ⟨x, found, rfl⟩ := (ih (others t t_mem) (numbered.inside t t_mem)).mp inside
        refine ⟨x, ?_, rfl⟩
        obtain ⟨before, after, split⟩ := List.append_of_mem t_mem
        rw [split] at numbered
        rw [thread?_cons, split, numbered.find_here rfl]
        exact found
    · rintro ⟨x, found, rfl⟩
      obtain ⟨t, mem, -, rfl, inside⟩ := thread?_found found
      have shows := (ih (others t mem) (numbered.inside t mem)).mpr ⟨x, inside, rfl⟩
      have viewed : ⟨t.branch, t.execution.snapshot⟩ ∈ e.snapshot.threads := by
        rw [threads]
        exact List.mem_map.mpr ⟨t, mem, rfl⟩
      exact .thread viewed shows

/-- The status text has a line with the address of each thread. -/
theorem Settled.line_of_thread (settled : e.Settled) {branch : Nat}
    (found : e.thread? (branch :: path) = some x) (indent : String) :
    ∃ margin, (margin ++ "  @" ++ pathText x.address ++ ":") ∈ e.snapshot.lines indent := by
  induction path generalizing e branch indent with
  | nil | cons next path ih =>
    obtain ⟨t, mem, -, -, inside⟩ := thread?_found found
    obtain ⟨⟨current, shown⟩, threads⟩ := settled.snapshot
    have viewed : ⟨t.branch, t.execution.snapshot⟩ ∈ e.snapshot.threads := by
      rw [threads]
      exact List.mem_map.mpr ⟨t, mem, rfl⟩
    obtain ⟨header, lines⟩ := mem_threadLines viewed indent
    have printed : ∀ line ∈ threadLines indent e.snapshot.threads,
        line ∈ e.snapshot.lines indent := by
      intro line mem
      generalize e.snapshot = s at shown mem ⊢
      cases s
      cases shown
      exact List.mem_append_right _ mem
    first
    | cases inside
      refine ⟨indent, printed _ ?_⟩
      rw [← snapshot_address]
      exact header
    | have t_settled := ((settled_iff e).mp settled).2.2 t mem
      obtain ⟨margin, line⟩ := ih t_settled inside (indent ++ "    ")
      exact ⟨margin, printed _ (lines _ line)⟩

end Execution

/-- The execution with another one in the place of its thread at a path. -/
def Execution.withThread : List Nat → Execution → Execution → Execution
  | [], _, x => x
  | branch :: path, e, x =>
    match findThread branch e.threads with
    | some (before, t, after) =>
      { e with
        threads := before ++ { t with execution := t.execution.withThread path x } :: after }
    | none => e

namespace Execution

variable {e x : Execution} {path : List Nat} {w : World σ}

/-- An event for the path is handed to the current block of `x`, which waits on or leaves. What is
around `x` then goes on, and waits as it did if `x` has not run out. -/
structure Routes (services : Services σ) (e : Execution) (path : List Nat) (x : Execution) :
    Prop where
  running : x.isRunning = true
  current : x.current? ≠ none
  delivered : ∃ goes_on : Execution → World σ → Outcome σ Execution Unit,
    (∀ y v, y.finished = false → goes_on y v = ⟨.ok (), e.withThread path y, v⟩) ∧
    (∀ given y v, Onward given v.journal (goes_on y v).world.journal) ∧
    ∀ b rest, x.ahead = b :: rest → ∀ event w, e.dispatch services event path w =
      ((b.react services event w).bind (fun b => { x with ahead := b :: rest }) fun reaction b w =>
        match reaction with
        | .stay => ⟨.ok (), { x with ahead := b :: rest }, w⟩
        | .leave after => x.leave services b (after ++ rest) w).bind
          (e.withThread path) fun _ => goes_on

theorem withThread_line (e x : Execution) (branch : Nat) (path : List Nat) :
    (e.withThread (branch :: path) x).toSequence = e.toSequence := by
  rw [withThread]
  split <;> rfl

/-- The thread that is put in its place is found there. -/
theorem Addressed.thread?_withThread (addressed : e.Addressed) (found : e.thread? path = some x)
    (y : Execution) : (e.withThread path y).thread? path = some y := by
  induction path generalizing e with
  | nil => rfl
  | cons branch path ih =>
    rw [Execution.thread?] at found
    split at found
    · next before t after searched =>
      obtain ⟨threads, rfl⟩ := findThread_some searched
      have numbered := addressed_iff.mp addressed
      have inside := ih (numbered.inside t (by simp [threads])) found
      rw [threads] at numbered
      have first := numbered.find_here rfl
        (s := { t with execution := t.execution.withThread path y })
      rw [withThread, searched, thread?_cons]
      simp only [first, Option.bind_some, inside]
    · cases found

/-- An event for the path and further down is one for `x`. What is around `x` then goes on, and
waits as it did if `x` has not run out. -/
def Carries (services : Services σ) (e : Execution) (path : List Nat) (x : Execution) : Prop :=
  ∃ goes_on : Execution → World σ → Outcome σ Execution Unit,
    (∀ y v, y.finished = false → goes_on y v = ⟨.ok (), e.withThread path y, v⟩) ∧
    (∀ given y v, Onward given v.journal (goes_on y v).world.journal) ∧
    ∀ event deeper w, e.dispatch services event (path ++ deeper) w =
      (x.dispatch services event deeper w).bind (e.withThread path) fun _ => goes_on

theorem Carries.here : e.Carries services [] e := by
  refine ⟨fun y v => ⟨.ok (), y, v⟩, fun _ _ _ => rfl, fun _ _ _ => .refl, fun event deeper w => ?_⟩
  rw [List.nil_append]
  generalize e.dispatch services event deeper w = o
  obtain ⟨result, part, v⟩ := o
  cases result <;> rfl

theorem Settled.carries (settled : e.Settled) (found : e.thread? path = some x) :
    e.Carries services path x := by
  induction path generalizing e with
  | nil =>
    cases found
    exact .here
  | cons branch path ih =>
    rw [Execution.thread?] at found
    split at found
    · next before t after searched =>
      obtain ⟨threads, same⟩ := findThread_some searched
      have mem : t ∈ e.threads := by simp [threads]
      obtain ⟨running, ⟨b, rest, now, hosts⟩, others⟩ := (settled_iff e).mp settled
      have t_settled := others t mem
      obtain ⟨goes_on, waits, onward, delivered⟩ := ih t_settled found
      obtain ⟨join, group⟩ :=
        Option.ne_none_iff_exists'.mp (hosts.join? (List.ne_nil_of_mem mem))
      -- What is around the thread goes on in its own turn.
      refine ⟨fun y v => (goes_on y v).bind
        (fun x => { e with threads := before ++ { t with execution := x } :: after })
        fun _ x v => e.afterThread services b rest join before after { t with execution := x } v,
        fun y v unfinished => ?_, fun given y v => ?_, fun event deeper w => ?_⟩
      · have still : (t.execution.withThread path y).finished = false := by
          cases path with
          | nil => exact unfinished
          | cons next path => rw [withThread_line, t_settled.unfinished]
        simp only [waits y v unfinished, Outcome.bind_ok]
        rw [afterThread_runs still, withThread, searched]
      · exact Outcome.bind_onward (onward given y v) fun _ _ _ => afterThread_onward _ _ _ _ _ _ _ _
      · rw [List.cons_append, dispatch_thread running now group searched, delivered]
        generalize x.dispatch services event deeper w = o
        obtain ⟨result, part, v⟩ := o
        cases result with
        | ok _ => rfl
        | error error => simp only [Outcome.bind, withThread, searched]
    · cases found

theorem Carries.onward (carries : e.Carries services path x) (given : Notice → Prop) (event : Event)
    (deeper : List Nat) (w : World σ) :
    Onward given (x.dispatch services event deeper w).world.journal
      (e.dispatch services event (path ++ deeper) w).world.journal := by
  obtain ⟨goes_on, -, onward, delivered⟩ := carries
  rw [delivered]
  exact Outcome.bind_onward .refl fun _ _ _ => onward _ _ _

/-- What an event makes of a thread is put in its place, unless it has run out. -/
theorem Carries.delivers (carries : e.Carries services path x) {event : Event} {deeper : List Nat}
    (unfinished : (x.dispatch services event deeper w).part.finished = false) :
    e.dispatch services event (path ++ deeper) w =
      (x.dispatch services event deeper w).within (e.withThread path) := by
  obtain ⟨goes_on, waits, -, delivered⟩ := carries
  rw [delivered]
  rcases reached : x.dispatch services event deeper w with ⟨result, y, v⟩
  rw [reached] at unfinished
  cases result with
  | error error => rfl
  | ok _ => exact waits y v unfinished

theorem Carries.routes (carries : e.Carries services path x) (running : x.isRunning = true)
    (some_block : x.ahead ≠ []) : e.Routes services path x := by
  obtain ⟨goes_on, waits, onward, delivered⟩ := carries
  refine ⟨running, ?_, goes_on, waits, onward, fun b rest now event w => ?_⟩
  · rwa [Sequence.current?, ne_eq, List.head?_eq_none_iff]
  · have here := delivered event [] w
    rw [List.append_nil, dispatch_here running now] at here
    exact here

theorem Routes.block (routes : e.Routes services path x) : ∃ b rest, x.ahead = b :: rest := by
  cases ahead : x.ahead with
  | nil => exact absurd (by rw [Sequence.current?, ahead]; rfl) routes.current
  | cons b rest => exact ⟨b, rest, rfl⟩

/-- The event is one for `x` itself. -/
theorem Routes.dispatch (routes : e.Routes services path x) :
    ∃ goes_on : Execution → World σ → Outcome σ Execution Unit,
      (∀ y v, y.finished = false → goes_on y v = ⟨.ok (), e.withThread path y, v⟩) ∧
      (∀ given y v, Onward given v.journal (goes_on y v).world.journal) ∧
      ∀ event w, e.dispatch services event path w =
        (x.dispatch services event [] w).bind (e.withThread path) fun _ => goes_on := by
  obtain ⟨b, rest, now⟩ := routes.block
  obtain ⟨running, -, goes_on, waits, onward, delivered⟩ := routes
  refine ⟨goes_on, waits, onward, fun event w => ?_⟩
  rw [dispatch_here running now]
  exact delivered b rest now event w

/-- An event for a thread that is not there changes nothing. -/
theorem Settled.dispatch_unroutable (settled : e.Settled) (nowhere : e.thread? path = none)
    (event : Event) (w : World σ) :
    ∃ notice, notice.IsUnroutable ∧
      e.dispatch services event path w = ⟨.ok (), e, w.passOver notice⟩ := by
  induction path generalizing e with
  | nil => cases nowhere
  | cons branch path ih =>
    obtain ⟨running, ⟨b, rest, now, hosts⟩, others⟩ := (settled_iff e).mp settled
    cases group : b.join? with
    | none => exact dispatch_nowhere services running now (Or.inl group) event path w
    | some join =>
      cases searched : findThread branch e.threads with
      | none => exact dispatch_nowhere services running now (Or.inr searched) event path w
      | some parts =>
        obtain ⟨before, t, after⟩ := parts
        obtain ⟨threads, -⟩ := findThread_some searched
        have t_settled := others t (by simp [threads])
        rw [Execution.thread?, searched] at nowhere
        obtain ⟨notice, unroutable, inside⟩ := ih t_settled nowhere
        refine ⟨notice, unroutable, ?_⟩
        rw [dispatch_thread running now group searched, inside, Outcome.bind_ok,
          afterThread_runs t_settled.unfinished]
        obtain ⟨line, _⟩ := e
        cases threads
        cases t
        rfl

/-- An event that finds its block is not passed over as one that does not. -/
theorem Routes.not_unroutable (routes : e.Routes services path x) {event : Event} {notice : Notice}
    (unroutable : notice.IsUnroutable) (part : Execution) :
    e.dispatch services event path w ≠ ⟨.ok (), part, w.passOver notice⟩ := by
  obtain ⟨b, rest, now⟩ := routes.block
  obtain ⟨goes_on, -, onward, delivered⟩ := routes.dispatch
  intro passed
  have here : Onward (fun notice => ¬ notice.IsUnroutable) w.journal
      (x.dispatch services event [] w).world.journal :=
    dispatch_here_onward (fun _ => not_false) routes.running now w
  have both : Onward (fun notice => ¬ notice.IsUnroutable) w.journal
      (e.dispatch services event path w).world.journal := by
    rw [delivered]
    exact Outcome.bind_onward here fun _ _ _ => onward _ _ _
  rw [passed] at both
  exact both.given_of_passedOver unroutable

end Execution

namespace Run

variable {r : Run σ}

theorem Fresh.address_after (services : Services σ) {blocks : List HostBlock}
    (fresh : r.Fresh blocks) (calls : List Call) : (r.after services calls).root.address = [] := by
  have step (r : Run σ) (call : Call) (h : r.InOrder ∧ r.root.address = []) :
      (r.perform services call).InOrder ∧ (r.perform services call).root.address = [] := by
    obtain ⟨inOrder, address⟩ := h
    refine ⟨inOrder_perform services r call inOrder, ?_⟩
    exact (perform_evolves services inOrder call).grows.line.address.trans address
  have root : r.root.address = [] := by
    obtain ⟨description, reminder, root⟩ := fresh.root
    rw [root]
    rfl
  exact (after_induction services (fun r call (_ : True) => step r call) ⟨fresh.inOrder, root⟩ calls
    fun _ _ => trivial).2

/-- A living run whose root has no place in another execution. -/
structure Rooted (Good : σ → Prop) (r : Run σ) : Prop extends r.Living Good where
  address : r.root.address = []

theorem Rooted.perform (reliable : services.Reliable Good) (rooted : r.Rooted Good) (call : Call) :
    (r.perform services call).Rooted Good where
  toLiving := living_perform reliable r call rooted.toLiving
  address := (perform_evolves services rooted.inOrder call).grows.line.address.trans rooted.address

theorem Fresh.rooted_after (reliable : services.Reliable Good) {blocks : List HostBlock}
    (fresh : r.Fresh blocks) (good : Good r.world.host) (calls : List Call) :
    (r.after services calls).Rooted Good where
  toLiving := fresh.living_after reliable good calls
  address := fresh.address_after services calls

theorem Rooted.address_thread (rooted : r.Rooted Good) {path : List Nat} {x : Execution}
    (found : r.root.thread? path = some x) : x.address = path := by
  rw [(rooted.inOrder.addressed.thread? found).2, rooted.address, List.nil_append]

/-- The root waits for an event, or it has no threads. -/
theorem Living.settled_or (living : r.Living Good) : r.root.Settled ∨ r.root.threads = [] := by
  by_cases none : r.root.threads = []
  · exact Or.inr none
  · exact Or.inl (living.staffed.threads none).1

theorem Living.shows_iff (living : r.Living Good) (path : List Nat) (shown : Snapshot) :
    r.root.snapshot.Shows path shown ↔
      ∃ x, r.root.thread? path = some x ∧ shown = x.snapshot := by
  rcases living.settled_or with settled | none
  · exact settled.shows_iff living.inOrder.addressed path shown
  · have views := Execution.snapshot_threadless none
    constructor
    · intro shows
      cases shows with
      | root => exact ⟨r.root, rfl, rfl⟩
      | thread mem inside =>
        rw [views] at mem
        cases mem
    · rintro ⟨x, found, rfl⟩
      cases path with
      | nil =>
        cases found
        exact .root
      | cons branch path =>
        obtain ⟨t, mem, -⟩ := Execution.thread?_found found
        rw [none] at mem
        cases mem

theorem Living.carries (living : r.Living Good) {path : List Nat} {x : Execution}
    (found : r.root.thread? path = some x) : r.root.Carries services path x := by
  rcases living.settled_or with settled | none
  · exact settled.carries found
  · obtain ⟨rfl, rfl⟩ := Execution.thread?_threadless none found
    exact .here

/-- A thread of a run that goes on runs as well, and has a block. -/
theorem Living.thread_runs (living : r.Living Good) (running : r.root.isRunning = true)
    {path : List Nat} {x : Execution} (found : r.root.thread? path = some x) :
    x.isRunning = true ∧ x.ahead ≠ [] := by
  rcases living.settled_or with settled | none
  · have settled_x := settled.thread? found
    obtain ⟨-, ⟨b, rest, now, -⟩, -⟩ := (Execution.settled_iff x).mp settled_x
    exact ⟨settled_x.isRunning, now ▸ List.cons_ne_nil b rest⟩
  · obtain ⟨-, rfl⟩ := Execution.thread?_threadless none found
    exact ⟨running, living.staffed.current running⟩

theorem Living.routes (living : r.Living Good) (running : r.root.isRunning = true)
    {path : List Nat} {x : Execution} (found : r.root.thread? path = some x) :
    r.root.Routes services path x :=
  have ⟨x_running, some_block⟩ := living.thread_runs running found
  (living.carries found).routes x_running some_block

theorem Living.unroutable_iff (living : r.Living Good) (running : r.root.isRunning = true)
    (path : List Nat) (event : Event) (w : World σ) :
    (∃ notice, notice.IsUnroutable ∧ r.root.dispatch services event path w =
        ⟨.ok (), r.root, w.passOver notice⟩) ↔ r.root.thread? path = none := by
  constructor
  · rintro ⟨notice, unroutable, passed⟩
    cases found : r.root.thread? path with
    | none => rfl
    | some x => exact absurd passed ((living.routes running found).not_unroutable unroutable _)
  · intro nowhere
    rcases living.settled_or with settled | none
    · exact settled.dispatch_unroutable nowhere event w
    · cases path with
      | nil => cases nowhere
      | cons branch path =>
        obtain ⟨b, rest, now⟩ := List.exists_cons_of_ne_nil (living.staffed.current running)
        have searched : findThread branch r.root.threads = Option.none := by
          rw [none]
          rfl
        exact Execution.dispatch_nowhere services running now (Or.inr searched) event path w

/-- One and the same path leads to a thread, is its address and that of its snapshot, is given with
its countdowns, is printed for it and read back, and routes events to it. -/
structure AddressesAgree (services : Services σ) (r : Run σ) : Prop where
  thread : ∀ path x, r.root.thread? path = some x → x.address = path
  shown : ∀ path shown, r.root.snapshot.Shows path shown ↔
    ∃ x, r.root.thread? path = some x ∧ shown = x.snapshot ∧ shown.address = path
  /-- Right after a countdown is started, its route is the address at which the wait is entered. -/
  countdown : ∀ value unit route earlier later,
    r.world.journal = later ++ .asked (.startCountdown value unit route) (.ok ()) :: earlier →
    ∃ latest index text, later = latest ++ [.entered route index text]
  printed : ∀ branch path shown, r.root.snapshot.Shows (branch :: path) shown →
    ∃ margin, (margin ++ "  @" ++ pathText (branch :: path) ++ ":") ∈ r.root.snapshot.lines ""
  /-- An event command that has no address yet, with one put in front of it. -/
  read : ∀ path, (∀ n ∈ path, n < Command.branchBound) → ∀ text event,
    (∀ address rest, Text.words text.toList ≠ ('@' :: address) :: rest) →
    (Command.read ("@" ++ pathText path ++ " " ++ text) = .ok (.event path event) ↔
      Command.read text = .ok (.event [] event))
  routed : r.root.isRunning = true → ∀ path x, r.root.thread? path = some x →
    r.root.Routes services path x
  unroutable : r.root.isRunning = true → ∀ path event w,
    (∃ notice, notice.IsUnroutable ∧ r.root.dispatch services event path w =
      ⟨.ok (), r.root, w.passOver notice⟩) ↔ r.root.thread? path = none

theorem addresses_agree (reliable : services.Reliable Good) {blocks : List HostBlock}
    (assembled : r.Assembled blocks) (good : Good r.world.host) (calls : List Call) :
    (r.after services calls).AddressesAgree services := by
  have living := assembled.toFresh.living_after reliable good calls
  have address : ∀ path x, (r.after services calls).root.thread? path = some x →
      x.address = path := by
    intro path x found
    rw [(living.inOrder.addressed.thread? found).2,
      assembled.toFresh.address_after services calls, List.nil_append]
  constructor
  case thread => exact address
  case shown =>
    intro path shown
    rw [living.shows_iff]
    constructor
    · rintro ⟨x, found, rfl⟩
      exact ⟨x, found, rfl, x.snapshot_address.trans (address path x found)⟩
    · rintro ⟨x, found, same, -⟩
      exact ⟨x, found, same⟩
  case countdown =>
    intro value unit route earlier later started
    exact (assembled.onward_after services calls).entered_at_route started
  case printed =>
    intro branch path shown shows
    obtain ⟨x, found, rfl⟩ := (living.shows_iff _ _).mp shows
    rw [← address _ x found]
    rcases living.settled_or with settled | none
    · exact settled.line_of_thread found ""
    · obtain ⟨t, mem, -⟩ := Execution.thread?_found found
      rw [none] at mem
      cases mem
  case read =>
    intro path small text event plain
    rw [Command.read_at small, Command.readWords_at_iff]
    have unaddressed : Command.read text = Command.readWords none (Text.words text.toList) := by
      unfold Command.read
      split
      · next address rest split => exact absurd split (plain address rest)
      · rfl
    rw [unaddressed]
  case routed => exact fun running path x found => living.routes running found
  case unroutable => exact fun running path event w => living.unroutable_iff running path event w

/-- A wait in a group inside another one, beside a task. -/
def tea : Run InMemory :=
  .ofWorkflow ⟨"tea", none, none, [.parallel "breakfast" 2 [[.task "toast"],
    [.parallel "pot" 1 [[.sleep 5 .minutes "steep" false], [.task "stir"]]]]]⟩ .empty

theorem addresses_agree_tea :
    let now := tea.after InMemory.services [.start]
    (now.root.isRunning = true ∧ (now.root.thread? [1, 0]).map (·.address) = some [1, 0] ∧
      now.root.thread? [1, 2] = none ∧
      now.root.snapshot.lines "" = ["[0] breakfast (2 of 2 to do)", "  next: END", "  @0:",
        "    [0] toast", "      next: END", "  @1:", "    [0] pot (1 of 2 to do)",
        "      next: END", "      @1/0:", "        [0] steep", "          05:00",
        "          next: END", "      @1/1:", "        [0] stir", "          next: END"] ∧
      Command.read "@1/0 skip" = .ok (.event [1, 0] .skip)) ∧
    now.AddressesAgree InMemory.services := by
  refine ⟨?_, ?_⟩
  · decide +kernel
  · exact addresses_agree InMemory.reliable (assembled_ofWorkflow _ _) InMemory.willing_empty
      [.start]

end Run

end Stepwise
