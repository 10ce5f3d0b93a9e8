import Stepwise.Execution.Dispatch
import Stepwise.Proofs.Landing

/-!
# Delivering events with a reliable host

An event that reaches a settled execution leaves it settled or run out. Most events change nothing
but the journal; one that makes a block leave ends in entering the blocks behind it, and an event
for a thread ends in one of three ways for its group.
-/

namespace Stepwise

variable {σ : Type} {Good : σ → Prop} {services : Services σ}

/-- An event was passed over because it did not find a thread. -/
def Notice.IsUnroutable : Notice → Prop
  | .notParallel _ _ _ | .noThread _ _ => True
  | _ => False

/-- The blocks that come after a block at a reaction. -/
def Reaction.after : Reaction → List Block
  | .stay => []
  | .leave blocks => blocks

namespace Block

theorem activity_of_join? {b : Block} {join : Join} (group : b.join? = some join) :
    b.activity = .parallel join := by
  unfold join? at group
  split at group
  · next activity =>
    cases group
    exact activity
  · cases group

theorem handOn_hooks (b : Block) (blocks : List Block) : (b.handOn blocks).1.hooks = b.hooks := by
  unfold handOn
  split <;> rfl

theorem handOn_activity (b : Block) (blocks : List Block) :
    (b.handOn blocks).1.activity = b.activity := by
  unfold handOn
  split <;> rfl

theorem handOn_shape (b : Block) (blocks : List Block) : (b.handOn blocks).1.shape = b.shape := by
  unfold handOn
  split <;> rfl

theorem handOn_plan (b : Block) (blocks : List Block) :
    (b.handOn blocks).2.map plan = blocks.map plan := by
  unfold handOn
  split
  · next id last _ h =>
    obtain ⟨front, rfl⟩ := List.getLast?_eq_some_iff.mp h
    simp
  · rfl

theorem handOn_hooksSucceed {b : Block} {blocks : List Block}
    (succeed : ∀ c ∈ blocks, c.HooksSucceed) : ∀ c ∈ (b.handOn blocks).2, c.HooksSucceed := by
  unfold handOn
  split
  · next id last _ h =>
    intro c mem
    rcases List.mem_append.mp mem with front | back
    · exact succeed c (List.dropLast_subset blocks front)
    · rw [List.mem_singleton.mp back]
      intro hook mem_hook
      rcases List.mem_cons.mp mem_hook with rfl | old
      · trivial
      · exact succeed last (List.mem_of_getLast? h) hook old
  · exact succeed

theorem answer_hooksSucceed {b : Block} (loop : LoopKind) (body : List Template) :
    ∀ c ∈ body.map ofTemplate ++ [b.successor (.asked loop body)], c.HooksSucceed := by
  intro c h
  rcases List.mem_append.mp h with inside | next
  · exact hooksSucceed_ofTemplates body c inside
  · rw [List.mem_singleton.mp next]
    exact nofun

/-- The block waits on with its threads, or it has none and leaves. -/
def Fares (threads : List Thread) (b : Block) : Reaction → Prop
  | .stay => b.Hosts threads
  | .leave after => threads = [] ∧ ∀ c ∈ after, c.HooksSucceed

theorem choose_eq (b : Block) (branch : List Template) (w : World σ) :
    b.choose branch w = ⟨.ok (.leave (b.handOn (branch.map ofTemplate)).2),
      (b.handOn (branch.map ofTemplate)).1, w.noteBuilt branch⟩ := rfl

/-- Every block takes or passes over every event. -/
theorem react_ok (reliable : services.Reliable Good) {b : Block} {threads : List Thread}
    (hosts : b.Hosts threads) (succeed : b.HooksSucceed) (event : Event) {w : World σ}
    (good : Good w.host) :
    ∃ reaction b' w', b.react services event w = ⟨.ok reaction, b', w'⟩ ∧ Good w'.host ∧
      b'.HooksSucceed ∧ b'.Fares threads reaction := by
  obtain ⟨id, image, reminder, handle, hooks, text, activity⟩ := b
  cases activity with
  | task =>
    cases event with
    | done => exact ⟨.leave [], _, w, rfl, good, succeed, hosts, List.forall_mem_nil _⟩
    | _ => exact ⟨.stay, _, _, rfl, good, succeed, hosts⟩
  | condition onYes onNo =>
    have chosen : ∀ branch : List Template, ∃ reaction b' w',
        (⟨id, image, reminder, handle, hooks, text, .condition onYes onNo⟩ : Block).choose branch w =
          ⟨.ok reaction, b', w'⟩ ∧ Good w'.host ∧ b'.HooksSucceed ∧ b'.Fares threads reaction := by
      intro branch
      refine ⟨_, _, _, choose_eq _ branch w, good, ?_, hosts, ?_⟩
      · intro hook mem
        rw [handOn_hooks] at mem
        exact succeed hook mem
      · exact handOn_hooksSucceed (hooksSucceed_ofTemplates branch)
    cases event with
    | yes => exact chosen onYes
    | no => exact chosen onNo
    | _ => exact ⟨.stay, _, _, rfl, good, succeed, hosts⟩
  | asked loop body =>
    have answered : ∀ yes : Bool, ∃ reaction b' w',
        (⟨id, image, reminder, handle, hooks, text, .asked loop body⟩ : Block).answer
          loop body yes w = ⟨.ok reaction, b', w'⟩ ∧ Good w'.host ∧ b'.HooksSucceed ∧
        b'.Fares threads reaction := by
      intro yes
      unfold answer
      split
      · exact ⟨_, _, w.noteBuilt body, rfl, good, succeed, hosts, answer_hooksSucceed loop body⟩
      · exact ⟨_, _, w, rfl, good, succeed, hosts, List.forall_mem_nil _⟩
    cases event with
    | yes => exact answered true
    | no => exact answered false
    | _ => exact ⟨.stay, _, _, rfl, good, succeed, hosts⟩
  | counted remaining entered body => exact False.elim hosts
  | parallel join => cases event <;> exact ⟨.stay, _, _, rfl, good, succeed, hosts⟩
  | sleep s =>
    cases event with
    | tick remaining => exact ⟨.stay, _, w, rfl, good, succeed, hosts⟩
    | elapsed => exact ⟨.leave [], _, w, rfl, good, succeed, hosts.2, List.forall_mem_nil _⟩
    | skip =>
      obtain ⟨w', forced, good'⟩ := World.ask_ok reliable.forceFinish .forceFinish good
      have spent : (⟨id, image, reminder, handle, hooks, text, .sleep s⟩ : Block).react services .skip
          w = ⟨.ok (.leave []), ⟨id, image, reminder, handle, hooks, text,
            .sleep { s with remaining := .zero }⟩, w'⟩ := by
        simp only [react, World.forceFinish, forced]
      exact ⟨.leave [], _, w', spent, good', succeed, hosts.2, List.forall_mem_nil _⟩
    | _ => exact ⟨.stay, _, _, rfl, good, succeed, hosts⟩

end Block

theorem findThread_some {branch : Nat} {threads before after : List Thread} {t : Thread}
    (found : findThread branch threads = some (before, t, after)) :
    threads = before ++ t :: after ∧ t.branch = branch := by
  induction threads generalizing before with
  | nil => cases found
  | cons s rest ih =>
    unfold findThread at found
    split at found
    · next same =>
      cases found
      exact ⟨rfl, same⟩
    · obtain ⟨⟨front, t', after'⟩, found', eq⟩ := Option.map_eq_some_iff.mp found
      cases eq
      obtain ⟨rfl, same⟩ := ih found'
      exact ⟨rfl, same⟩

section Increasing

variable {before after : List Thread} {t : Thread}
  (increasing : (before ++ t :: after).Pairwise fun s t => s.branch < t.branch)
include increasing

theorem increasing_replace (e : Execution) :
    (before ++ { t with execution := e } :: after).Pairwise fun s t => s.branch < t.branch := by
  simp only [List.pairwise_append, List.pairwise_cons, List.mem_cons, forall_eq_or_imp]
    at increasing ⊢
  exact increasing

theorem branch_ne {s : Thread} (mem : s ∈ before ++ after) : s.branch ≠ t.branch := by
  obtain ⟨-, later, lower⟩ := List.pairwise_append.mp increasing
  rcases List.mem_append.mp mem with front | back
  · exact Nat.ne_of_lt (lower s front t List.mem_cons_self)
  · exact Nat.ne_of_gt ((List.pairwise_cons.mp later).1 s back)

theorem find_increasing {s : Thread} (same : s.branch = t.branch) :
    (before ++ s :: after).find? (·.branch = t.branch) = some s := by
  have lower : before.find? (·.branch = t.branch) = none := by
    rw [List.find?_eq_none]
    intro u mem
    simpa using branch_ne increasing (List.mem_append_left after mem)
  simp [List.find?_append, lower, same]

/-- Of two threads the one with the higher number is the later one. -/
theorem increasing_split {u : Thread} (mem : u ∈ before ++ t :: after)
    (higher : t.branch < u.branch) : ∃ between later, after = between ++ u :: later := by
  obtain ⟨-, -, lower⟩ := List.pairwise_append.mp increasing
  rcases List.mem_append.mp mem with front | back
  · exact absurd (lower u front t List.mem_cons_self) (Nat.lt_asymm higher)
  · rcases List.mem_cons.mp back with rfl | back
    · exact absurd higher (Nat.lt_irrefl _)
    · exact List.append_of_mem back

end Increasing

namespace Join.Open

variable {j : Join} {before after : List Thread} {t : Thread}

theorem replace (h : j.Open (before ++ t :: after)) (e : Execution) :
    j.Open (before ++ { t with execution := e } :: after) where
  increasing := increasing_replace h.increasing e
  bounded s mem := by
    rcases List.mem_append.mp mem with front | back
    · exact h.bounded s (List.mem_append_left _ front)
    · rcases List.mem_cons.mp back with rfl | back
      · exact h.bounded t (by simp)
      · exact h.bounded s (by simp [back])
  total := by
    have := h.total
    simpa using this
  short := h.short
  undone := h.undone

/-- One more thread has finished, without ending the group. -/
theorem remove (h : j.Open (before ++ t :: after)) (more : j.completed + 1 ≠ j.target) :
    ({ j with completed := j.completed + 1 } : Join).Open (before ++ after) where
  increasing := by
    refine h.increasing.sublist ?_
    exact (List.sublist_cons_self t after).append_left before
  bounded s mem := by
    have kept := (List.sublist_cons_self t after).append_left before
    exact h.bounded s (kept.subset mem)
  total := by
    have : j.completed + (before ++ t :: after).length = j.branches.length := h.total
    simp only [List.length_append, List.length_cons] at this ⊢
    omega
  short := by
    have : j.completed < j.target := h.short
    show j.completed + 1 < j.target
    omega
  undone := h.undone

theorem ends_iff (h : j.Open (before ++ t :: after)) :
    (before ++ after = [] ∨ j.completed + 1 = j.choose) ↔ j.completed + 1 = j.target := by
  have total := h.total
  rw [← Join.ends_iff (before ++ after).length ?_ h.short, List.length_eq_zero_iff]
  simp only [List.length_append, List.length_cons] at total ⊢
  omega

end Join.Open

namespace Execution

variable {e : Execution} {b : Block} {rest : List Block}

/-- Leaving the current block is entering the blocks behind it. -/
theorem leave_within {place : List Nat → Prop} (cancels : services.Cancels Good place)
    (here : b.CountsIn place) (inside : allCountIn place e.threads) (succeed : b.HooksSucceed)
    (threads : hooksSucceed e.threads) (ahead : List Block) {w : World σ} (good : Good w.host) :
    ∃ w', e.leave services b ahead w =
        Execution.enter services ⟨e.advance b.ended ahead, []⟩ w' ∧ Good w'.host := by
  obtain ⟨v, cancelled, good_v⟩ := cancelThreads_within cancels inside threads good
  obtain ⟨u, left, good_u⟩ := b.leave_within cancels here succeed good_v
  refine ⟨e.noteLeft b.ended u, ?_, good_u⟩
  simp only [leave, cancelled, Outcome.bind, left]

theorem leave_ok (reliable : services.Reliable Good) (succeed : b.HooksSucceed)
    (threads : hooksSucceed e.threads) (ahead : List Block) {w : World σ} (good : Good w.host) :
    ∃ w', e.leave services b ahead w =
        Execution.enter services ⟨e.advance b.ended ahead, []⟩ w' ∧ Good w'.host :=
  leave_within (reliable.cancels fun _ => True) (fun _ _ _ => trivial)
    (allCountIn_all (fun _ => trivial) _) succeed threads ahead good

theorem dispatch_here (running : e.isRunning = true) (now : e.ahead = b :: rest) (event : Event)
    (w : World σ) :
    e.dispatch services event [] w =
      (b.react services event w).bind (fun b => { e with ahead := b :: rest })
        fun reaction b w =>
          match reaction with
          | .stay => ⟨.ok (), { e with ahead := b :: rest }, w⟩
          | .leave after => e.leave services b (after ++ rest) w := by
  have unfolded := dispatch.eq_def services event [] e w
  simp only [running, Bool.not_true, Bool.false_eq_true, if_false, now] at unfolded
  exact unfolded

theorem dispatch_thread {branch : Nat} {join : Join} {before after : List Thread} {t : Thread}
    (running : e.isRunning = true) (now : e.ahead = b :: rest) (group : b.join? = some join)
    (found : findThread branch e.threads = some (before, t, after)) (event : Event)
    (path : List Nat) (w : World σ) :
    e.dispatch services event (branch :: path) w =
      (t.execution.dispatch services event path w).bind
        (fun x => { e with threads := before ++ { t with execution := x } :: after })
        fun _ x w =>
          e.afterThread services b rest join before after { t with execution := x } w := by
  rw [dispatch.eq_def]
  simp only [running, Bool.not_true, Bool.false_eq_true, if_false, now, group, found]

/-- An event for a thread that is not there is passed over as one. -/
theorem dispatch_nowhere (services : Services σ) {branch : Nat} (running : e.isRunning = true)
    (now : e.ahead = b :: rest)
    (nowhere : b.join? = none ∨ findThread branch e.threads = none) (event : Event)
    (path : List Nat) (w : World σ) :
    ∃ notice, notice.IsUnroutable ∧
      e.dispatch services event (branch :: path) w = ⟨.ok (), e, w.passOver notice⟩ := by
  rw [dispatch.eq_def]
  simp only [running, Bool.not_true, Bool.false_eq_true, if_false, now]
  cases group : b.join? with
  | none => exact ⟨.notParallel event branch b.shownText, trivial, rfl⟩
  | some join =>
    rcases nowhere with none | none
    · rw [group] at none
      cases none
    · simp only [none]
      exact ⟨.noThread branch event, trivial, rfl⟩

theorem dispatch_at_end (running : e.isRunning = true) (now : e.ahead = []) (event : Event)
    (path : List Nat) (w : World σ) :
    e.dispatch services event path w = ⟨.ok (), e, w.passOver (.noBlock event)⟩ := by
  rw [dispatch.eq_def]
  simp only [running, Bool.not_true, Bool.false_eq_true, if_false, now]

theorem dispatch_idle (idle : e.isRunning = false) (event : Event) (path : List Nat)
    (w : World σ) :
    e.dispatch services event path w = ⟨.ok (), e, w.passOver (.notRunning event)⟩ := by
  rw [dispatch.eq_def]
  simp only [idle, Bool.not_false, if_true]

/-- An event changes nothing, or it is for the current block, or it is for a thread of the current
group and then for the group. -/
theorem dispatch_along {motive : Outcome σ Execution Unit → Prop} {event : Event} {w : World σ}
    (path : List Nat) (passed : ∀ notice, motive ⟨.ok (), e, w.passOver notice⟩)
    (here : ∀ b rest, path = [] → e.isRunning = true → e.ahead = b :: rest →
      motive ((b.react services event w).bind (fun b => { e with ahead := b :: rest })
        fun reaction b w =>
          match reaction with
          | .stay => ⟨.ok (), { e with ahead := b :: rest }, w⟩
          | .leave after => e.leave services b (after ++ rest) w))
    (thread : ∀ b rest join before t after further, path = t.branch :: further →
      e.isRunning = true → e.ahead = b :: rest → b.join? = some join →
      e.threads = before ++ t :: after →
      motive ((t.execution.dispatch services event further w).bind
        (fun x => { e with threads := before ++ { t with execution := x } :: after })
        fun _ x w => e.afterThread services b rest join before after { t with execution := x } w)) :
    motive (e.dispatch services event path w) := by
  cases running : e.isRunning with
  | false =>
    rw [dispatch_idle running]
    exact passed _
  | true =>
    cases now : e.ahead with
    | nil =>
      rw [dispatch_at_end running now]
      exact passed _
    | cons b rest =>
      cases path with
      | nil =>
        rw [dispatch_here running now]
        exact here b rest rfl running now
      | cons branch further =>
        have nowhere : (b.join? = none ∨ findThread branch e.threads = none) →
            motive (e.dispatch services event (branch :: further) w) := by
          intro none
          obtain ⟨notice, -, delivered⟩ := dispatch_nowhere services running now none event further w
          rw [delivered]
          exact passed notice
        cases group : b.join? with
        | none => exact nowhere (Or.inl group)
        | some join =>
          cases found : findThread branch e.threads with
          | none => exact nowhere (Or.inr found)
          | some parts =>
            obtain ⟨before, t, after⟩ := parts
            rw [dispatch_thread running now group found]
            obtain ⟨threads, rfl⟩ := findThread_some found
            exact thread b rest join before t after further rfl running now group threads

/-- The same where it does not matter which of the threads it is. -/
theorem dispatch_cases {motive : Outcome σ Execution Unit → Prop} {event : Event} {w : World σ}
    (path : List Nat) (passed : ∀ notice, motive ⟨.ok (), e, w.passOver notice⟩)
    (here : ∀ b rest, e.isRunning = true → e.ahead = b :: rest →
      motive ((b.react services event w).bind (fun b => { e with ahead := b :: rest })
        fun reaction b w =>
          match reaction with
          | .stay => ⟨.ok (), { e with ahead := b :: rest }, w⟩
          | .leave after => e.leave services b (after ++ rest) w))
    (thread : ∀ b rest join before t after further, e.isRunning = true → e.ahead = b :: rest →
      b.join? = some join → e.threads = before ++ t :: after → further.length < path.length →
      motive ((t.execution.dispatch services event further w).bind
        (fun x => { e with threads := before ++ { t with execution := x } :: after })
        fun _ x w => e.afterThread services b rest join before after { t with execution := x } w)) :
    motive (e.dispatch services event path w) := by
  refine dispatch_along path passed (fun b rest _ => here b rest) ?_
  rintro b rest join before t after further rfl running now group threads
  exact thread b rest join before t after further running now group threads (Nat.lt_succ_self _)

/-- The block of a group that ends when one more thread has finished. -/
def endedGroup (b : Block) (join : Join) : Block :=
  Block.ended { b with
    activity := .parallel { join with completed := join.completed + 1, done := true } }

section Group

variable {join : Join} {before after : List Thread} {t : Thread} {x : Execution} {w : World σ}

theorem afterThread_runs (unfinished : x.finished = false) :
    e.afterThread services b rest join before after { t with execution := x } w =
      ⟨.ok (), { e with threads := before ++ { t with execution := x } :: after }, w⟩ := by
  simp only [afterThread, unfinished, Bool.false_eq_true, if_false]

/-- The group goes on without a thread that has finished. -/
theorem afterThread_counts (finished : x.finished = true) (some_left : before ++ after ≠ [])
    (few : join.completed + 1 ≠ join.choose) :
    e.afterThread services b rest join before after { t with execution := x } w =
      ⟨.ok (), ⟨{ e.toSequence with ahead := { b with
        activity := .parallel { join with completed := join.completed + 1 } } :: rest },
        before ++ after⟩, w⟩ := by
  have completed := Join.complete_stays services join some_left few w
  simp only [afterThread, finished, if_true, completed, Outcome.bind, Bool.false_eq_true, if_false]

theorem afterThread_stays (finished : x.finished = true)
    (is_open : join.Open (before ++ t :: after)) (more : join.completed + 1 ≠ join.target) :
    e.afterThread services b rest join before after { t with execution := x } w =
      ⟨.ok (), ⟨{ e.toSequence with ahead := { b with
        activity := .parallel { join with completed := join.completed + 1 } } :: rest },
        before ++ after⟩, w⟩ := by
  have test := mt is_open.ends_iff.mp more
  exact afterThread_counts finished (fun h => test (Or.inl h)) (fun h => test (Or.inr h))

/-- The group leaves with a thread that has finished. -/
theorem afterThread_joins {place : List Nat → Prop} (cancels : services.Cancels Good place)
    (inside : allCountIn place (before ++ after)) (rest : List Block) (finished : x.finished = true)
    (enough : before ++ after = [] ∨ join.completed + 1 = join.choose) (undone : join.done = false)
    (succeed : b.HooksSucceed) (others : hooksSucceed (before ++ after)) (good : Good w.host) :
    ∃ w', e.afterThread services b rest join before after { t with execution := x } w =
        Execution.enter services ⟨e.advance (endedGroup b join) rest, []⟩ w' ∧ Good w'.host := by
  obtain ⟨v, cancelled, good_v⟩ := cancelThreads_within cancels inside others good
  have completed := Join.complete_ends enough undone cancelled
  obtain ⟨u, left, good_u⟩ := leave_within (b := { b with
      activity := .parallel { join with completed := join.completed + 1, done := true } })
    (e := ⟨{ e.toSequence with ahead := { b with
      activity := .parallel { join with completed := join.completed + 1, done := true } } :: rest },
      []⟩) cancels nofun trivial succeed trivial rest good_v
  refine ⟨u, ?_, good_u⟩
  simp only [afterThread, finished, if_true, completed, Outcome.bind]
  exact left

theorem afterThread_ends (reliable : services.Reliable Good) (rest : List Block)
    (finished : x.finished = true)
    (is_open : join.Open (before ++ t :: after)) (enough : join.completed + 1 = join.target)
    (succeed : b.HooksSucceed) (others : hooksSucceed (before ++ after)) (good : Good w.host) :
    ∃ w', e.afterThread services b rest join before after { t with execution := x } w =
        Execution.enter services ⟨e.advance (endedGroup b join) rest, []⟩ w' ∧ Good w'.host :=
  afterThread_joins (reliable.cancels fun _ => True) (allCountIn_all (fun _ => trivial) _) rest
    finished (is_open.ends_iff.mpr enough) is_open.undone succeed others good

end Group

/-- `e'` is what an event may make of `e`. -/
structure Becomes (e e' : Execution) : Prop where
  behind : e.behind <:+ e'.behind
  address : e'.address = e.address
  started : e'.started = e.started
  hooks : e'.HooksSucceed
  rests : e'.Over ∨ e'.Settled

theorem LandsAt.becomes {e' : Execution} (lands : e.LandsAt e') : e.Becomes e' where
  behind := lands.behind
  address := lands.address
  started := lands.started
  hooks := lands.hooks
  rests := by
    cases instant : e.ahead.all Block.isInstant with
    | true => exact Or.inl (lands.spent instant)
    | false => exact Or.inr (lands.settled instant)

/-- Entering the blocks behind a block that has left. -/
theorem enter_becomes (reliable : services.Reliable Good) (running : e.isRunning = true)
    (left : Block) {ahead : List Block} (hooks : ∀ c ∈ ahead, c.HooksSucceed) {w : World σ}
    (good : Good w.host) :
    ∃ e' w', Execution.enter services ⟨e.advance left ahead, []⟩ w = ⟨.ok (), e', w'⟩ ∧
      Good w'.host ∧ e.Becomes e' ∧ left :: e.behind <:+ e'.behind ∧
      e'.toil ≤ blocksEffort ahead := by
  obtain ⟨e', w', entered, good', at_e'⟩ :=
    enter_lands (e := ⟨e.advance left ahead, []⟩) reliable running hooks w good
  have moved := at_e'.becomes
  refine ⟨e', w', entered, good', ?_, moved.behind, at_e'.toil⟩
  exact
    { behind := (List.suffix_cons left e.behind).trans moved.behind
      address := moved.address
      started := moved.started
      hooks := moved.hooks
      rests := moved.rests }

/-- A settled execution with other threads in its group, or another state of its block. -/
theorem Settled.with_block {b' : Block} {threads : List Thread} (settled : e.Settled)
    (hosts : b'.Hosts threads) (others : settledAll threads) :
    Settled ⟨{ e.toSequence with ahead := b' :: rest }, threads⟩ :=
  ⟨settled.isRunning, ⟨b', rest, rfl, hosts⟩, others⟩

theorem HooksSucceed.at_cons (quiet : e.HooksSucceed) (now : e.ahead = b :: rest) :
    b.HooksSucceed ∧ (∀ c ∈ rest, c.HooksSucceed) ∧ hooksSucceed e.threads := by
  rw [Execution.hooksSucceed_iff, now] at quiet
  exact ⟨quiet.1 b List.mem_cons_self, fun c h => quiet.1 c (List.mem_cons_of_mem b h), quiet.2⟩

theorem HooksSucceed.with_block {b' : Block} {threads : List Thread} (succeed : b'.HooksSucceed)
    (rest_hooks : ∀ c ∈ rest, c.HooksSucceed) (others : hooksSucceed threads) :
    HooksSucceed ⟨{ e.toSequence with ahead := b' :: rest }, threads⟩ := by
  refine ⟨fun c h => ?_, others⟩
  rcases List.mem_cons.mp h with rfl | h
  · exact succeed
  · exact rest_hooks c h

theorem Settled.becomes_self (settled : e.Settled) (quiet : e.HooksSucceed) : e.Becomes e :=
  ⟨List.suffix_refl _, rfl, rfl, quiet, Or.inr settled⟩

theorem becomes_with_block {b' : Block} {threads : List Thread}
    (settled : Settled ⟨{ e.toSequence with ahead := b' :: rest }, threads⟩)
    (quiet : HooksSucceed ⟨{ e.toSequence with ahead := b' :: rest }, threads⟩) :
    e.Becomes ⟨{ e.toSequence with ahead := b' :: rest }, threads⟩ :=
  ⟨List.suffix_refl _, rfl, rfl, quiet, Or.inr settled⟩

theorem dispatch_here_becomes (reliable : services.Reliable Good) (settled : e.Settled)
    (quiet : e.HooksSucceed) (event : Event) {w : World σ} (good : Good w.host) :
    ∃ e' w', e.dispatch services event [] w = ⟨.ok (), e', w'⟩ ∧ Good w'.host ∧ e.Becomes e' := by
  obtain ⟨running, ⟨b, rest, now, hosts⟩, others⟩ := (settled_iff e).mp settled
  obtain ⟨succeed, rest_hooks, threads_hooks⟩ := quiet.at_cons now
  obtain ⟨reaction, b', v, reacted, good_v, succeed', fares⟩ :=
    b.react_ok reliable hosts succeed event good
  simp only [dispatch_here running now, reacted, Outcome.bind]
  cases reaction with
  | stay =>
    refine ⟨_, v, rfl, good_v, becomes_with_block ?_ ?_⟩
    · exact settled.with_block fares ((settledAll_forall _).mpr others)
    · exact .with_block succeed' rest_hooks threads_hooks
  | leave after =>
    obtain ⟨u, left, good_u⟩ :=
      leave_ok reliable succeed' threads_hooks (after ++ rest) good_v
    have ahead_hooks : ∀ c ∈ after ++ rest, c.HooksSucceed := by
      intro c h
      rcases List.mem_append.mp h with h | h
      · exact fares.2 c h
      · exact rest_hooks c h
    obtain ⟨e', w', entered, good', moved, -⟩ :=
      enter_becomes reliable running b'.ended ahead_hooks good_u
    exact ⟨e', w', left.trans entered, good', moved⟩

theorem join_open (hosts : b.Hosts e.threads) {join : Join} (group : b.join? = some join) :
    b.activity = .parallel join ∧ join.Open e.threads := by
  have activity := Block.activity_of_join? group
  simp only [Block.Hosts, activity] at hosts
  exact ⟨activity, hosts⟩

/-- A thread of the group has become `x`. -/
theorem afterThread_becomes (reliable : services.Reliable Good) {join : Join}
    {before after : List Thread} {t : Thread} {x : Execution} (settled : e.Settled)
    (quiet : e.HooksSucceed) (now : e.ahead = b :: rest) (activity : b.activity = .parallel join)
    (threads : e.threads = before ++ t :: after) (moved : t.execution.Becomes x) {w : World σ}
    (good : Good w.host) :
    ∃ e' w', e.afterThread services b rest join before after { t with execution := x } w =
        ⟨.ok (), e', w'⟩ ∧ Good w'.host ∧ e.Becomes e' := by
  obtain ⟨running, ⟨c, cs, now', hosts⟩, others⟩ := (settled_iff e).mp settled
  obtain ⟨rfl, rfl⟩ := List.cons.inj (now.symm.trans now')
  obtain ⟨succeed, rest_hooks, threads_hooks⟩ := quiet.at_cons now
  have is_open : join.Open e.threads := by simpa only [Block.Hosts, activity] using hosts
  rw [← settledAll_forall, threads, settledAll_append, settledAll_cons] at others
  rw [threads, hooksSucceed_append, hooksSucceed_cons] at threads_hooks
  rw [threads] at is_open
  have others_hooks := (hooksSucceed_append _ _).mpr ⟨threads_hooks.1, threads_hooks.2.2⟩
  have others_settled := (settledAll_append _ _).mpr ⟨others.1, others.2.2⟩
  rcases moved.rests with spent | settled_x
  · by_cases enough : join.completed + 1 = join.target
    · obtain ⟨u, ended, good_u⟩ := afterThread_ends (e := e) reliable rest spent.finished
        is_open enough succeed others_hooks good
      obtain ⟨e', w', entered, good', moved', -⟩ :=
        enter_becomes reliable running (endedGroup b join) rest_hooks good_u
      exact ⟨e', w', ended.trans entered, good', moved'⟩
    · refine ⟨_, w, afterThread_stays spent.finished is_open enough, good, becomes_with_block ?_ ?_⟩
      · exact settled.with_block (is_open.remove enough) others_settled
      · exact .with_block succeed rest_hooks others_hooks
  · refine ⟨_, w, afterThread_runs settled_x.unfinished, good, ?_⟩
    have threads_settled : settledAll (before ++ { t with execution := x } :: after) :=
      (settledAll_append _ _).mpr ⟨others.1, settled_x, others.2.2⟩
    have threads_quiet : hooksSucceed (before ++ { t with execution := x } :: after) :=
      (hooksSucceed_append _ _).mpr ⟨threads_hooks.1, moved.hooks, threads_hooks.2.2⟩
    refine ⟨List.suffix_refl _, rfl, rfl, ?_, Or.inr ?_⟩
    · rw [Execution.hooksSucceed_iff]
      exact ⟨((Execution.hooksSucceed_iff e).mp quiet).1, threads_quiet⟩
    · refine ⟨running, ⟨b, rest, now, ?_⟩, threads_settled⟩
      simpa only [Block.Hosts, activity] using is_open.replace x

theorem dispatch_becomes (reliable : services.Reliable Good) (settled : e.Settled)
    (quiet : e.HooksSucceed) (event : Event) (path : List Nat) {w : World σ} (good : Good w.host) :
    ∃ e' w', e.dispatch services event path w = ⟨.ok (), e', w'⟩ ∧ Good w'.host ∧
      e.Becomes e' := by
  induction path generalizing e w with
  | nil => exact dispatch_here_becomes reliable settled quiet event good
  | cons branch path ih =>
    refine dispatch_along (motive := fun o => ∃ e' w', o = ⟨.ok (), e', w'⟩ ∧ Good w'.host ∧
      e.Becomes e') (branch :: path) (fun _ => ⟨e, _, rfl, good, settled.becomes_self quiet⟩)
      (fun _ _ none => nomatch none) ?_
    intro b rest join before t after further same _ now group threads
    obtain ⟨-, rfl⟩ := List.cons.inj same
    obtain ⟨-, ⟨b', rest', now', hosts⟩, others⟩ := (settled_iff e).mp settled
    obtain ⟨rfl, rfl⟩ := List.cons.inj (now.symm.trans now')
    have mem : t ∈ e.threads := by simp [threads]
    obtain ⟨x, v, delivered, good_v, moved⟩ := ih (others t mem)
      ((hooksSucceed_forall _).mp (quiet.at_cons now).2.2 t mem) good
    simp only [delivered, Outcome.bind]
    exact afterThread_becomes reliable settled quiet now (join_open hosts group).1 threads moved
      good_v

end Execution

end Stepwise
