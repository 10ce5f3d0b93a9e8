import Stepwise.Proofs.Countdowns.Landing
import Stepwise.Proofs.Living
import Stepwise.Proofs.Stranding

/-!
# Events and one countdown

An event that does not skip a wait never makes a tree endable that was not: a wait whose countdown
was taken over has lost it for good. And where a tree can be brought to its end some event keeps it
so and takes effort away. It is an event for the thread whose countdown runs, if that thread needs
it, since any other thread may take the countdown over.
-/

namespace Stepwise

open InMemory (Displays)

namespace Block

/-- A block that stays can be left just as before, and one that leaves could be left, if its
countdown ran when it elapsed. -/
def Heeds (event : Event) (b b' : Block) : Reaction → Prop
  | .stay => (∀ awaited able, b'.passable awaited able = b.passable awaited able) ∧
      ∀ s', b'.activity = .sleep s' → ∃ s, b.activity = .sleep s ∧ s'.route = s.route
  | .leave after => (b'.CountsIn fun _ => False) ∧
      ∀ awaited able, (event = .elapsed → awaited = true) → blocksEndable true after = true →
        b.passable awaited able = true

theorem Heeds.stays (event : Event) (b : Block) : b.Heeds event b .stay :=
  ⟨fun _ _ => rfl, fun s asleep => ⟨s, asleep, rfl⟩⟩

theorem endable_handOn (b : Block) (branch : List Template) :
    blocksEndable true (b.handOn (branch.map ofTemplate)).2 = endableAll true branch := by
  rw [← blocksEndable_map_plan, handOn_plan, blocksEndable_map_plan, blocksEndable_ofTemplates]

theorem choose_heeds {σ : Type} (event : Event) {b : Block} {onYes onNo branch : List Template}
    (activity : b.activity = .condition onYes onNo) (one : branch = onYes ∨ branch = onNo)
    (w : World σ) : ∃ reaction b' w', b.choose branch w = ⟨.ok reaction, b', w'⟩ ∧
      w'.host = w.host ∧ b.Heeds event b' reaction := by
  refine ⟨_, _, _, choose_eq b branch w, rfl, ?_, fun awaited able _ after_able => ?_⟩
  · intro s asleep
    rw [handOn_activity, activity] at asleep
    cases asleep
  · rw [endable_handOn] at after_able
    simp only [passable, activity, Bool.or_eq_true]
    rcases one with rfl | rfl
    · exact Or.inl after_able
    · exact Or.inr after_able

theorem answer_heeds {σ : Type} (event : Event) {b : Block} {loop : LoopKind}
    {body : List Template} (activity : b.activity = .asked loop body) (yes : Bool) (w : World σ) :
    ∃ reaction b' w', b.answer loop body yes w = ⟨.ok reaction, b', w'⟩ ∧ w'.host = w.host ∧
      b.Heeds event b' reaction := by
  have passable (awaited : Bool) (able : Nat) : b.passable awaited able = true := by
    simp only [Block.passable, activity]
  have idle : b.CountsIn fun _ => False := by
    intro s asleep
    rw [activity] at asleep
    cases asleep
  unfold answer
  split
  · exact ⟨_, _, w.noteBuilt body, rfl, rfl, idle, fun awaited able _ _ => passable awaited able⟩
  · exact ⟨_, b, w, rfl, rfl, idle, fun awaited able _ _ => passable awaited able⟩

/-- Only skipping a wait asks the host for anything. -/
theorem react_heeds {σ : Type} (services : Services σ) (b : Block) {event : Event}
    (unskipped : event ≠ .skip) (w : World σ) : ∃ reaction b' w',
      b.react services event w = ⟨.ok reaction, b', w'⟩ ∧ w'.host = w.host ∧
      b.Heeds event b' reaction := by
  obtain ⟨id, image, reminder, handle, hooks, text, activity⟩ := b
  cases activity with
  | task =>
    cases event with
    | skip => exact absurd rfl unskipped
    | done => exact ⟨.leave [], _, w, rfl, rfl, nofun, fun _ _ _ _ => rfl⟩
    | _ => exact ⟨.stay, _, _, rfl, rfl, .stays _ _⟩
  | condition onYes onNo =>
    cases event with
    | skip => exact absurd rfl unskipped
    | yes => exact choose_heeds .yes rfl (Or.inl rfl) w
    | no => exact choose_heeds .no rfl (Or.inr rfl) w
    | _ => exact ⟨.stay, _, _, rfl, rfl, .stays _ _⟩
  | asked loop body =>
    cases event with
    | skip => exact absurd rfl unskipped
    | yes => exact answer_heeds .yes rfl true w
    | no => exact answer_heeds .no rfl false w
    | _ => exact ⟨.stay, _, _, rfl, rfl, .stays _ _⟩
  | counted remaining entered body => cases event <;> exact ⟨.stay, _, _, rfl, rfl, .stays _ _⟩
  | parallel join => cases event <;> exact ⟨.stay, _, _, rfl, rfl, .stays _ _⟩
  | sleep s =>
    cases event with
    | skip => exact absurd rfl unskipped
    | tick remaining =>
      refine ⟨.stay, _, w, rfl, rfl, fun _ _ => rfl, ?_⟩
      rintro _ ⟨⟩
      exact ⟨s, rfl, rfl⟩
    | elapsed =>
      refine ⟨.leave [], _, w, rfl, rfl, ?_, fun _ _ own _ => own rfl⟩
      rintro _ ⟨⟩ running
      have elapsed : Binary64.zero.isPositive = false := by decide
      exact absurd (elapsed.symm.trans running) Bool.false_ne_true
    | _ => exact ⟨.stay, _, _, rfl, rfl, .stays _ _⟩

end Block

namespace Execution

variable {e e' : Execution} {b : Block} {rest : List Block}
  {route route' before : Option (List Nat)}

/-- `e'` is what an event may make of `e`: the countdown that runs then is the one of `route`, which
ran before, or it is one that was set in `e`. -/
structure Follows (e e' : Execution) (route route' : Option (List Nat)) : Prop where
  becomes : e.Becomes e'
  routed : e'.Routed
  shifted : Shifted (e.address <+: ·) route route'

/-- The operation is answered with what follows from `e`, and that can be brought to its end just
if `able`. -/
def LeavesEndable (e : Execution) (route : Option (List Nat)) (able : Bool)
    (o : Outcome InMemory Execution Unit) : Prop :=
  ∃ e' w' route', o = ⟨.ok (), e', w'⟩ ∧ Displays (· = route') w'.host ∧ e.Follows e' route route' ∧
    e'.endable route' = able

/-- Entering the blocks behind a block that has left. -/
theorem enter_behind (running : e.isRunning = true) (left : Block) {ahead : List Block}
    (hooks : ∀ c ∈ ahead, c.HooksSucceed) {w : World InMemory}
    (shown : Displays (· = route) w.host) :
    e.LeavesEndable route (blocksEndable true ahead)
      (Execution.enter InMemory.services ⟨e.advance left ahead, []⟩ w) := by
  obtain ⟨e', w', route', entered, shown', lands⟩ :=
    enter_board (e := ⟨e.advance left ahead, []⟩) running hooks route w shown
  obtain ⟨e₁, w₁, entered₁, -, moved, -⟩ :=
    enter_becomes InMemory.reliable running left hooks shown.willing
  rw [entered] at entered₁
  cases entered₁
  exact ⟨e', w', route', entered, shown', ⟨moved, lands.routed, lands.moves.shifted⟩, lands.kept⟩

/-- The current block takes an event and leaves. -/
theorem leave_board (settled : e.Settled) (quiet : e.HooksSucceed) (now : e.ahead = b :: rest)
    (threadless : e.threads = []) {event : Event} {after : List Block} {b' : Block}
    {w v : World InMemory}
    (reacted : b.react InMemory.services event w = ⟨.ok (.leave after), b', v⟩)
    (idle : b'.CountsIn fun _ => False) (succeed : b'.HooksSucceed)
    (after_hooks : ∀ c ∈ after, c.HooksSucceed) (shown : Displays (· = route) v.host) :
    e.LeavesEndable route (blocksEndable true after && blocksEndable true rest)
      (e.dispatch InMemory.services event [] w) := by
  obtain ⟨-, rest_hooks, -⟩ := quiet.at_cons now
  have none_inside : allCountIn (fun _ => False) e.threads := by
    rw [threadless]
    trivial
  have none_fail : hooksSucceed e.threads := by
    rw [threadless]
    trivial
  obtain ⟨u, left, shown_u⟩ := leave_within InMemory.calm_displays.cancelsNone idle none_inside
    succeed none_fail (after ++ rest) shown
  have ahead_hooks := List.forall_mem_append.mpr ⟨after_hooks, rest_hooks⟩
  rw [dispatch_here settled.isRunning now, reacted, Outcome.bind_ok, ← blocksEndable_true_append]
  show e.LeavesEndable _ _ (e.leave InMemory.services b' (after ++ rest) v)
  rw [left]
  exact enter_behind settled.isRunning b'.ended ahead_hooks shown_u

section Group

variable {join : Join} {earlier later : List Thread} {t : Thread} {x : Execution}

/-- What can be done for a group once one of its threads has become `x`. -/
def groupEndable (join : Join) (rest : List Block) (route : Option (List Nat))
    (earlier later : List Thread) (x : Execution) : Bool :=
  decide (join.target ≤
    join.completed + ((x.endable route).toNat + endableThreads route (earlier ++ later))) &&
    blocksEndable true rest

theorem groupEndable_counted (able : x.endable route = true) :
    groupEndable join rest route earlier later x =
      (decide (join.target ≤ join.completed + 1 + endableThreads route (earlier ++ later)) &&
        blocksEndable true rest) := by
  rw [groupEndable, able, Bool.toNat_true, Nat.add_assoc]

section AfterThread

variable {w : World InMemory} (settled : e.Settled) (quiet : e.HooksSucceed) (routed : e.Routed)
  (now : e.ahead = b :: rest) (activity : b.activity = .parallel join)
  (threads : e.threads = earlier ++ t :: later) (moved : t.execution.Becomes x)
  (shown : Displays (· = route) w.host)
include settled quiet routed now activity threads moved shown

/-- A group with a thread that waits again. -/
theorem afterThread_waits (x_routed : x.Routed) (unfinished : x.finished = false) :
    e.LeavesEndable route (groupEndable join rest route earlier later x)
      (e.afterThread InMemory.services b rest join earlier later { t with execution := x } w) := by
  obtain ⟨e₁, w₁, left, -, becomes⟩ := afterThread_becomes InMemory.reliable settled quiet now
    activity threads moved shown.willing
  rw [afterThread_runs unfinished] at left ⊢
  cases left
  obtain ⟨waits, inside⟩ := routed_iff.mp routed
  rw [threads, allRouted_append, allRouted_cons] at inside
  obtain ⟨front, ⟨stands, -⟩, back⟩ := inside
  have x_inside : allRouted e.address (earlier ++ { t with execution := x } :: later) :=
    (allRouted_append _ _ _).mpr
      ⟨front, (allRouted_cons _ _ _).mpr ⟨⟨moved.address.trans stands, x_routed⟩, back⟩⟩
  refine ⟨_, w, route, rfl, shown, ⟨becomes, routed_iff.mpr ⟨waits, x_inside⟩, Or.inl rfl⟩, ?_⟩
  rw [endable_cons (e := ⟨e.toSequence, earlier ++ { t with execution := x } :: later⟩) now,
    endableThreads_between]
  simp only [Block.passable, activity, groupEndable]

theorem afterThread_finished (finished : x.finished = true) :
    e.LeavesEndable route (groupEndable join rest route earlier later x)
      (e.afterThread InMemory.services b rest join earlier later { t with execution := x } w) := by
  obtain ⟨running, ⟨c, cs, now', hosts⟩, -⟩ := (settled_iff e).mp settled
  obtain ⟨rfl, rfl⟩ := List.cons.inj (now.symm.trans now')
  have is_open : join.Open e.threads := by simpa only [Block.Hosts, activity] using hosts
  obtain ⟨succeed, rest_hooks, threads_hooks⟩ := quiet.at_cons now
  have inside := (routed_iff.mp routed).2
  rw [threads] at is_open
  rw [threads, hooksSucceed_append, hooksSucceed_cons] at threads_hooks
  rw [threads, allRouted_append, allRouted_cons] at inside
  have others_hooks := (hooksSucceed_append _ _).mpr ⟨threads_hooks.1, threads_hooks.2.2⟩
  have others_routed := (allRouted_append _ _ _).mpr ⟨inside.1, inside.2.2⟩
  have x_able : x.endable route = true := by
    rcases moved.rests with spent | settled_x
    · exact endable_nil spent.ahead route
    · exact absurd (settled_x.unfinished.symm.trans finished) Bool.false_ne_true
  rw [groupEndable_counted x_able]
  by_cases enough : join.completed + 1 = join.target
  · have spared : Displays (Spared (e.address <+: ·) route) w.host :=
      ⟨shown.willing, Or.inl shown.route⟩
    obtain ⟨u, joins, shown_u⟩ := afterThread_joins (e := e) (InMemory.cancels_displays _ route)
      (allCountIn_of_routed others_routed fun _ => id) rest finished (is_open.ends_iff.mpr enough)
      is_open.undone succeed others_hooks spared
    obtain ⟨e', w', route', entered, shown', follows, able⟩ :=
      enter_behind running (endedGroup b join) rest_hooks shown_u.self
    rw [joins, decide_eq_true (by omega), Bool.true_and]
    have shifted := shown_u.route.shifted.trans follows.shifted
    exact ⟨e', w', route', entered, shown', ⟨follows.becomes, follows.routed, shifted⟩, able⟩
  · obtain ⟨e₁, w₁, left, -, becomes⟩ := afterThread_becomes InMemory.reliable settled quiet now
      activity threads moved shown.willing
    rw [afterThread_stays finished is_open enough] at left ⊢
    cases left
    refine ⟨_, w, route, rfl, shown, ⟨becomes, .with_block ?_ others_routed, Or.inl rfl⟩, ?_⟩
    · rintro s ⟨⟩
    · rw [endable_with_block]
      rfl

/-- A thread of the group has become `x`: the group goes on, or it ends in the same call. In both
cases it has what the threads that are left can do for it. -/
theorem afterThread_board (x_routed : x.Routed) :
    e.LeavesEndable route (groupEndable join rest route earlier later x)
      (e.afterThread InMemory.services b rest join earlier later { t with execution := x } w) := by
  cases finished : x.finished with
  | false =>
    exact afterThread_waits settled quiet routed now activity threads moved shown x_routed finished
  | true =>
    exact afterThread_finished settled quiet routed now activity threads moved shown finished

end AfterThread

/-- An event for a thread of the group. -/
theorem dispatch_thread_board (settled : e.Settled) (quiet : e.HooksSucceed) (routed : e.Routed)
    (now : e.ahead = b :: rest) (group : b.join? = some join)
    (found : findThread t.branch e.threads = some (earlier, t, later)) {event : Event}
    {path : List Nat} {w v : World InMemory} {route₁ : Option (List Nat)}
    (delivered : t.execution.dispatch InMemory.services event path w = ⟨.ok (), x, v⟩)
    (shown : Displays (· = route₁) v.host) (follows : t.execution.Follows x route route₁) :
    e.LeavesEndable route (groupEndable join rest route₁ earlier later x)
      (e.dispatch InMemory.services event (t.branch :: path) w) := by
  have activity := Block.activity_of_join? group
  have threads := (findThread_some found).1
  have inside := (allRouted_forall _ _).mp (routed_iff.mp routed).2 t (by simp [threads])
  have shifted := follows.shifted
  rw [inside.1] at shifted
  obtain ⟨e', w', route', left, shown', follows', able⟩ := afterThread_board settled quiet
    routed now activity threads follows.becomes shown follows.routed
  have moved := (shifted.mono fun path below =>
    (List.prefix_append e.address [t.branch]).trans below).trans follows'.shifted
  rw [dispatch_thread settled.isRunning now group found, delivered, Outcome.bind_ok]
  exact ⟨e', w', route', left, shown', ⟨follows'.becomes, follows'.routed, moved⟩, able⟩

theorem endable_group (now : e.ahead = b :: rest) (group : b.join? = some join)
    (threads : e.threads = earlier ++ t :: later) (route : Option (List Nat)) :
    e.endable route = groupEndable join rest route earlier later t.execution := by
  have activity := Block.activity_of_join? group
  rw [endable_cons now, threads, endableThreads_between]
  simp only [Block.passable, activity, groupEndable]

/-- More can be done for a group with a thread that can do more, and others that can. -/
theorem groupEndable_le {y : Execution} (here : x.endable route = true → y.endable route' = true)
    (others : ∀ s ∈ earlier ++ later, s.execution.endable route = true →
      s.execution.endable route' = true)
    (able : groupEndable join rest route earlier later x = true) :
    groupEndable join rest route' earlier later y = true := by
  have others_le := endableThreads_le others
  have here_le : (x.endable route).toNat ≤ (y.endable route').toNat :=
    Bool.toNat_le_toNat (Bool.le_iff_imp.mpr here)
  simp only [groupEndable, Bool.and_eq_true, decide_eq_true_eq] at able ⊢
  exact ⟨by omega, able.2⟩

/-- The other threads of the group, with the numbers that tell them from it. -/
theorem Routed.others (routed : e.Routed) (threads : e.threads = earlier ++ t :: later)
    (increasing : e.threads.Pairwise fun s t => s.branch < t.branch) {s : Thread}
    (mem : s ∈ earlier ++ later) : s.branch ≠ t.branch ∧
      s.execution.address = e.address ++ [s.branch] ∧ s.execution.Routed := by
  have inside := (allRouted_forall _ _).mp (routed_iff.mp routed).2
  have kept := (List.sublist_cons_self t later).append_left earlier
  rw [threads] at inside increasing
  exact ⟨branch_ne increasing mem, inside s (kept.subset mem)⟩

end Group

/-- The countdown runs on, or it was taken off the board. -/
def Fades (before route : Option (List Nat)) : Prop := route = none ∨ route = before

theorem endable_of_fades (fades : Fades before route) (able : e.endable route = true) :
    e.endable before = true := by
  rcases fades with rfl | rfl
  · exact endable_of_none before able
  · exact able

/-- A thread of the same group as the place in which the countdown may have been set. -/
theorem endable_of_shifted {address : List Nat} {branch : Nat} (fades : Fades before route)
    (shifted : Shifted (address ++ [branch] <+: ·) route route') {s : Thread}
    (s_routed : s.execution.Routed) (stands : s.execution.address = address ++ [s.branch])
    (other : s.branch ≠ branch) (able : s.execution.endable route' = true) :
    s.execution.endable before = true := by
  rcases shifted with rfl | inside
  · exact endable_of_fades fades able
  · have outside : RouteIn (fun path => ¬ s.execution.address <+: path) route' := by
      rw [stands]
      exact inside.mono fun path here there => other (branch_unique there here)
    rw [s_routed.endable_outside outside] at able
    exact endable_of_none before able

/-- The event is answered with what follows from `e`, and if that can be brought to its end, then
`e` could be. -/
def LeavesNoBetter (e : Execution) (before route : Option (List Nat))
    (o : Outcome InMemory Execution Unit) : Prop :=
  ∃ e' w' route', o = ⟨.ok (), e', w'⟩ ∧ Displays (· = route') w'.host ∧ e.Follows e' route route' ∧
    (e'.endable route' = true → e.endable before = true)

theorem LeavesEndable.noBetter {able : Bool} {o : Outcome InMemory Execution Unit}
    (leaves : e.LeavesEndable route able o) (of_able : able = true → e.endable before = true) :
    e.LeavesNoBetter before route o := by
  obtain ⟨e', w', route', left, shown', follows, same⟩ := leaves
  exact ⟨e', w', route', left, shown', follows, fun h => of_able (same.symm.trans h)⟩

theorem dispatch_here_board (settled : e.Settled) (quiet : e.HooksSucceed) (routed : e.Routed)
    {event : Event} (unskipped : event ≠ .skip) (fades : Fades before route)
    (own : event = .elapsed → before = some e.address) {w : World InMemory}
    (shown : Displays (· = route) w.host) :
    e.LeavesNoBetter before route (e.dispatch InMemory.services event [] w) := by
  obtain ⟨running, ⟨b, rest, now, hosts⟩, others⟩ := (settled_iff e).mp settled
  obtain ⟨succeed, rest_hooks, threads_hooks⟩ := quiet.at_cons now
  obtain ⟨reaction, b', v, reacted, same_host, heeds⟩ :=
    b.react_heeds InMemory.services unskipped w
  obtain ⟨_, _, _, reacted₁, -, succeed', fares⟩ :=
    b.react_ok InMemory.reliable hosts succeed event shown.willing
  rw [reacted] at reacted₁
  cases reacted₁
  have shown_v : Displays (· = route) v.host := by rwa [same_host]
  cases reaction with
  | stay =>
    rw [dispatch_here running now, reacted, Outcome.bind_ok]
    have settled' : Settled ⟨{ e.toSequence with ahead := b' :: rest }, e.threads⟩ :=
      settled.with_block fares ((settledAll_forall _).mpr others)
    have quiet' : HooksSucceed ⟨{ e.toSequence with ahead := b' :: rest }, e.threads⟩ :=
      .with_block succeed' rest_hooks threads_hooks
    have routed' : Routed ⟨{ e.toSequence with ahead := b' :: rest }, e.threads⟩ := by
      refine .with_block (fun s' asleep => ?_) (routed_iff.mp routed).2
      obtain ⟨s, was_asleep, same⟩ := heeds.2 s' asleep
      have current : e.current? = some b := by rw [Sequence.current?, now, List.head?_cons]
      rw [same]
      exact (routed_iff.mp routed).1 b s current was_asleep
    have becomes := becomes_with_block settled' quiet'
    refine ⟨_, v, route, rfl, shown_v, ⟨becomes, routed', Or.inl rfl⟩, fun able => ?_⟩
    rw [endable_with_block, heeds.1, ← endable_cons now] at able
    exact endable_of_fades fades able
  | leave after =>
    have leaves := leave_board settled quiet now fares.1 reacted heeds.1 succeed' fares.2 shown_v
    refine leaves.noBetter fun able => ?_
    rw [Bool.and_eq_true] at able
    rw [endable_cons now, Bool.and_eq_true]
    refine ⟨heeds.2 _ _ (fun elapsed => ?_) able.1, able.2⟩
    rw [own elapsed, decide_eq_true rfl]

/-- Apart from skipping a wait and from ending one whose countdown does not run, every event may be
delivered to every path. -/
theorem dispatch_board (settled : e.Settled) (quiet : e.HooksSucceed) (routed : e.Routed)
    {event : Event} (unskipped : event ≠ .skip) (path : List Nat) (fades : Fades before route)
    (own : event = .elapsed → before = some (e.address ++ path)) {w : World InMemory}
    (shown : Displays (· = route) w.host) :
    e.LeavesNoBetter before route (e.dispatch InMemory.services event path w) := by
  induction path generalizing e route w with
  | nil =>
    rw [List.append_nil] at own
    exact dispatch_here_board settled quiet routed unskipped fades own shown
  | cons branch path ih =>
    obtain ⟨running, ⟨b, rest, now, hosts⟩, others⟩ := (settled_iff e).mp settled
    have nowhere (none : b.join? = none ∨ findThread branch e.threads = none) :
        e.LeavesNoBetter before route (e.dispatch InMemory.services event (branch :: path) w) := by
      obtain ⟨notice, -, passed⟩ :=
        dispatch_nowhere InMemory.services running now none event path w
      exact ⟨e, _, route, passed, shown, ⟨settled.becomes_self quiet, routed, Or.inl rfl⟩,
        endable_of_fades fades⟩
    cases group : b.join? with
    | none => exact nowhere (Or.inl group)
    | some join =>
      cases found : findThread branch e.threads with
      | none => exact nowhere (Or.inr found)
      | some parts =>
        obtain ⟨earlier, t, later⟩ := parts
        obtain ⟨threads, rfl⟩ := findThread_some found
        obtain ⟨activity, is_open⟩ := join_open hosts group
        have mem : t ∈ e.threads := by simp [threads]
        have inside := (allRouted_forall _ _).mp (routed_iff.mp routed).2
        obtain ⟨stands, t_routed⟩ := inside t mem
        have t_own (elapsed : event = .elapsed) : before = some (t.execution.address ++ path) := by
          rw [own elapsed, stands, List.append_assoc, List.singleton_append]
        obtain ⟨x, v, route₁, delivered, shown_v, follows, t_able⟩ :=
          ih (others t mem) ((hooksSucceed_forall _).mp (quiet.at_cons now).2.2 t mem) t_routed
            fades t_own shown
        have shifted := follows.shifted
        rw [stands] at shifted
        refine (dispatch_thread_board settled quiet routed now group found delivered shown_v
          follows).noBetter fun able => ?_
        rw [endable_group now group threads]
        refine groupEndable_le t_able (fun s s_mem s_able => ?_) able
        obtain ⟨other, s_stands, s_routed⟩ := routed.others threads is_open.increasing s_mem
        exact endable_of_shifted fades shifted s_routed s_stands other s_able

end Execution

/-- The event neither skips a wait nor reports on one. -/
def Event.Answers : Event → Prop
  | .done | .yes | .no | .elapsed => True
  | .skip | .tick _ => False

namespace Block

theorem answers_leaving (yes : Bool) (b : Block) : (b.leaving yes).Answers := by
  obtain ⟨id, image, reminder, handle, hooks, text, activity⟩ := b
  cases activity with
  | condition onYes onNo => cases yes <;> trivial
  | asked loop body => cases loop <;> trivial
  | _ => trivial

/-- A block that can be left takes an event after which nothing is lost. -/
theorem exists_leaving {b : Block} {awaited : Bool} {able : Nat}
    (can : b.passable awaited able = true) : ∃ yes, endableAll true (b.chosen yes) = true ∧
      (b.leaving yes = .elapsed → awaited = true) := by
  obtain ⟨id, image, reminder, handle, hooks, text, activity⟩ := b
  cases activity with
  | condition onYes onNo =>
    rcases Bool.or_eq_true_iff.mp can with yes | no
    · exact ⟨true, yes, nofun⟩
    · exact ⟨false, no, nofun⟩
  | sleep s => exact ⟨true, rfl, fun _ => can⟩
  | asked loop body => cases loop <;> exact ⟨true, rfl, nofun⟩
  | _ => exact ⟨true, rfl, nofun⟩

end Block

theorem exists_endable {threads : List Thread} {route : Option (List Nat)}
    (some_able : 0 < endableThreads route threads) :
    ∃ t ∈ threads, t.execution.endable route = true := by
  induction threads with
  | nil => exact absurd some_able (Nat.lt_irrefl 0)
  | cons t rest ih =>
    cases able : t.execution.endable route with
    | true => exact ⟨t, List.mem_cons_self, able⟩
    | false =>
      rw [endableThreads_cons, able, Bool.toNat_false, Nat.zero_add] at some_able
      obtain ⟨s, mem, can⟩ := ih some_able
      exact ⟨s, List.mem_cons_of_mem t mem, can⟩

/-- The thread that needs the running countdown goes first, if there is one: no other thread needs
it. -/
theorem exists_first {address : List Nat} {threads : List Thread} {route : Option (List Nat)}
    (routed : allRouted address threads) (some_able : 0 < endableThreads route threads) :
    ∃ t ∈ threads, t.execution.endable route = true ∧ ∀ s ∈ threads, s.branch ≠ t.branch →
      s.execution.endable route = true → s.execution.endable none = true := by
  rw [allRouted_forall] at routed
  by_cases needs : ∃ t ∈ threads, t.execution.endable route = true ∧
      t.execution.endable none = false
  · obtain ⟨t, mem, able, needs⟩ := needs
    refine ⟨t, mem, able, fun s s_mem other s_able => ?_⟩
    obtain ⟨t_stands, t_routed⟩ := routed t mem
    obtain ⟨s_stands, s_routed⟩ := routed s s_mem
    have outside : RouteIn (fun path => ¬ s.execution.address <+: path) route := by
      intro path same there
      have elsewhere : RouteIn (fun path => ¬ t.execution.address <+: path) route := by
        rintro path' same' here
        rw [same] at same'
        cases same'
        rw [s_stands] at there
        rw [t_stands] at here
        exact other (branch_unique there here)
      rw [t_routed.endable_outside elsewhere, needs] at able
      exact Bool.false_ne_true able
    rwa [s_routed.endable_outside outside] at s_able
  · obtain ⟨t, mem, able⟩ := exists_endable some_able
    refine ⟨t, mem, able, fun s s_mem _ s_able => ?_⟩
    cases none_able : s.execution.endable none with
    | true => rfl
    | false => exact absurd ⟨s, s_mem, s_able, none_able⟩ needs

namespace Execution

variable {e : Execution} {b : Block} {rest : List Block} {before : Option (List Nat)}

/-- The event takes effort away, and what it leaves can still be brought to its end. If it ends a
wait, then that is the one whose countdown runs. -/
structure Advances (e : Execution) (before : Option (List Nat)) (path : List Nat) (event : Event) :
    Prop where
  answers : event.Answers
  own : event = .elapsed → before = some (e.address ++ path)
  nearer : ∀ w : World InMemory, w.host.Willing →
    (e.dispatch InMemory.services event path w).part.Nearer e.burden
  able : ∀ route (w : World InMemory), Fades before route → Displays (· = route) w.host →
    e.LeavesEndable route true (e.dispatch InMemory.services event path w)

theorem advances_here (settled : e.Settled) (quiet : e.HooksSucceed) (now : e.ahead = b :: rest)
    (single : b.join? = none) (able : e.endable before = true) :
    ∃ event, e.Advances before [] event := by
  obtain ⟨running, ⟨c, cs, now', hosts⟩, -⟩ := (settled_iff e).mp settled
  obtain ⟨rfl, rfl⟩ := List.cons.inj (now.symm.trans now')
  have takes := hosts.takesAlone single
  have threadless : e.threads = [] := by
    by_contra some_thread
    exact hosts.join? some_thread single
  have succeed := (quiet.at_cons now).1
  rw [endable_cons now, Bool.and_eq_true] at able
  obtain ⟨yes, chosen_able, own⟩ := Block.exists_leaving able.1
  refine ⟨b.leaving yes, ?_⟩
  exact
    { answers := b.answers_leaving yes
      own := by
        intro elapsed
        rw [List.append_nil]
        exact of_decide_eq_true (own elapsed)
      nearer := by
        intro w willing
        obtain ⟨after, b', v, reacted, same, succeed', -, after_hooks, plan⟩ :=
          Block.react_leaving InMemory.services takes succeed yes w
        refine nearer_of_reaction InMemory.reliable quiet running now takes reacted
          (by rwa [same]) succeed' after_hooks ?_
        rw [← blocksEffort_map_plan, plan, blocksEffort_ofTemplates]
        exact b.effort_chosen_lt yes
      able := by
        intro route w _ shown
        obtain ⟨after, b', v, reacted, same, succeed', idle, after_hooks, plan⟩ :=
          Block.react_leaving InMemory.services takes succeed yes w
        have after_able : blocksEndable true after = true := by
          rw [← blocksEndable_map_plan, plan, blocksEndable_ofTemplates]
          exact chosen_able
        have leaves := leave_board settled quiet now threadless reacted idle succeed' after_hooks
          (by rwa [same] : Displays (· = route) v.host)
        rwa [after_able, able.2] at leaves }

/-- What advances the thread that goes first advances the group. -/
theorem Advances.of_thread (settled : e.Settled) (quiet : e.HooksSucceed) (routed : e.Routed)
    (able : e.endable before = true) (now : e.ahead = b :: rest) {join : Join}
    (group : b.join? = some join) {t : Thread} (mem : t ∈ e.threads)
    (first : ∀ s ∈ e.threads, s.branch ≠ t.branch → s.execution.endable before = true →
      s.execution.endable none = true)
    {path : List Nat} {event : Event} (advances : t.execution.Advances before path event) :
    e.Advances before (t.branch :: path) event := by
  obtain ⟨running, ⟨c, cs, now', hosts⟩, -⟩ := (settled_iff e).mp settled
  obtain ⟨rfl, rfl⟩ := List.cons.inj (now.symm.trans now')
  obtain ⟨-, is_open⟩ := join_open hosts group
  obtain ⟨earlier, later, threads⟩ := List.append_of_mem mem
  have found : findThread t.branch e.threads = some (earlier, t, later) := by
    have increasing := is_open.increasing
    rw [threads] at increasing ⊢
    exact findThread_increasing increasing
  have stands := ((allRouted_forall _ _).mp (routed_iff.mp routed).2 t mem).1
  exact
    { answers := advances.answers
      own := by
        intro elapsed
        rw [advances.own elapsed, stands, List.append_assoc, List.singleton_append]
      nearer := by
        intro w willing
        exact nearer_of_thread InMemory.reliable quiet running now group is_open.undone found
          willing (advances.nearer w willing)
      able := by
        intro route w fades shown
        obtain ⟨x, v, route₁, delivered, shown_v, follows, x_able⟩ :=
          advances.able route w fades shown
        have leaves := dispatch_thread_board settled quiet routed now group found delivered
          shown_v follows
        rw [endable_group now group threads] at able
        have still : groupEndable join rest route₁ earlier later x = true := by
          refine groupEndable_le (fun _ => x_able) (fun s s_mem s_able => ?_) able
          obtain ⟨other, -, -⟩ := routed.others threads is_open.increasing s_mem
          have s_inside : s ∈ earlier ++ t :: later :=
            ((List.sublist_cons_self t later).append_left earlier).subset s_mem
          exact endable_of_none route₁ (first s (threads ▸ s_inside) other s_able)
        rwa [still] at leaves }

theorem exists_advance (settled : e.Settled) (quiet : e.HooksSucceed) (routed : e.Routed)
    (able : e.endable before = true) : ∃ path event, e.Advances before path event := by
  induction size : e.burden using Nat.strongRecOn generalizing e with
  | ind n ih =>
  subst size
  obtain ⟨running, ⟨b, rest, now, hosts⟩, others⟩ := (settled_iff e).mp settled
  cases group : b.join? with
  | none =>
    obtain ⟨event, advances⟩ := advances_here settled quiet now group able
    exact ⟨[], event, advances⟩
  | some join =>
    obtain ⟨activity, is_open⟩ := join_open hosts group
    have some_able : 0 < endableThreads before e.threads := by
      have short := is_open.short
      rw [endable_cons now, Bool.and_eq_true] at able
      simp only [Block.passable, activity, decide_eq_true_eq] at able
      omega
    obtain ⟨t, mem, t_able, first⟩ := exists_first (routed_iff.mp routed).2 some_able
    have t_routed := ((allRouted_forall _ _).mp (routed_iff.mp routed).2 t mem).2
    have t_quiet := (hooksSucceed_forall _).mp (quiet.at_cons now).2.2 t mem
    have smaller : t.execution.burden < e.burden := by
      obtain ⟨earlier, later, threads⟩ := List.append_of_mem mem
      rw [burden_cons now, threads, burdenAll_between]
      simp only [Block.toil, activity]
      omega
    obtain ⟨path, event, advances⟩ := ih _ smaller (others t mem) t_quiet t_routed t_able rfl
    exact ⟨t.branch :: path, event,
      .of_thread settled quiet routed able now group mem first advances⟩

end Execution

end Stepwise
