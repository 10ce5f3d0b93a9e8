import Stepwise.Proofs.History
import Stepwise.Proofs.Removals

/-!
# Runs that a failure leaves stranded

A request that fails breaks an operation off, and the run stands where it broke off. A counted loop
and a group take no event themselves, so that the run may be left waiting for nothing although the
host answers again. Whether events can still finish it is told by its tree alone, and no event
changes that: what is stranded stays so, and what is not can be finished.
-/

namespace Stepwise

variable {σ : Type} {Good : σ → Prop} {services : Services σ}

/-- With this many threads listed, of which so many can finish, the group can come to its end: all
that are listed can finish, or as many as are still asked for. -/
def Join.canEnd (j : Join) (listed able : Nat) : Bool :=
  !j.done && decide ((0 < listed ∧ able = listed) ∨
    (j.completed < j.choose ∧ j.choose ≤ j.completed + able))

/-- The block, which is current with its threads, can be left by events. -/
def Block.canLeave (b : Block) (listed able : Nat) : Bool :=
  match b.activity with
  | .counted _ _ _ => false
  | .parallel join => join.canEnd listed able
  | _ => true

mutual

/-- The execution has finished or can be brought to its end by events. -/
def Execution.canFinish : Execution → Bool
  | ⟨line, threads⟩ =>
    line.finished || (line.isRunning &&
      match line.ahead with
      | [] => false
      | b :: _ => b.canLeave threads.length (ableThreads threads))

/-- How many of the threads can finish. -/
def ableThreads : List Thread → Nat
  | [] => 0
  | ⟨_, execution⟩ :: rest => execution.canFinish.toNat + ableThreads rest

end

theorem ableThreads_cons (t : Thread) (rest : List Thread) :
    ableThreads (t :: rest) = t.execution.canFinish.toNat + ableThreads rest := by
  obtain ⟨branch, execution⟩ := t
  rw [ableThreads]

theorem ableThreads_append (first second : List Thread) :
    ableThreads (first ++ second) = ableThreads first + ableThreads second := by
  induction first with
  | nil => simp [ableThreads]
  | cons t rest ih => rw [List.cons_append, ableThreads_cons, ableThreads_cons, ih, Nat.add_assoc]

theorem ableThreads_le (threads : List Thread) : ableThreads threads ≤ threads.length := by
  induction threads with
  | nil => exact Nat.le_refl 0
  | cons t rest ih =>
    have one := t.execution.canFinish.toNat_le
    rw [ableThreads_cons, List.length_cons]
    omega

theorem exists_able {threads : List Thread} (some_able : 0 < ableThreads threads) :
    ∃ t ∈ threads, t.execution.canFinish = true := by
  induction threads with
  | nil => exact absurd some_able (Nat.lt_irrefl 0)
  | cons t rest ih =>
    cases able : t.execution.canFinish with
    | true => exact ⟨t, List.mem_cons_self, able⟩
    | false =>
      rw [ableThreads_cons, able, Bool.toNat_false, Nat.zero_add] at some_able
      obtain ⟨s, mem, can⟩ := ih some_able
      exact ⟨s, List.mem_cons_of_mem t mem, can⟩

/-- A thread of the group among the others. -/
theorem ableThreads_between (before after : List Thread) (t : Thread) :
    ableThreads (before ++ t :: after) =
      ableThreads (before ++ after) + t.execution.canFinish.toNat := by
  rw [ableThreads_append, ableThreads_append, ableThreads_cons]
  omega

namespace Join

variable {j : Join} {listed able : Nat}

theorem canEnd_of_done (done : j.done = true) : j.canEnd listed able = false := by
  simp only [canEnd, done, Bool.not_true, Bool.false_and]

theorem canEnd_iff (undone : j.done = false) : j.canEnd listed able = true ↔
    (0 < listed ∧ able = listed) ∨ (j.completed < j.choose ∧ j.choose ≤ j.completed + able) := by
  simp only [canEnd, undone, Bool.not_false, Bool.true_and, decide_eq_true_eq]

/-- A thread that has finished is counted, and the group goes on. -/
theorem canEnd_counted (some_left : 0 < listed) (few : j.completed + 1 ≠ j.choose) :
    ({ j with completed := j.completed + 1 } : Join).canEnd listed able =
      j.canEnd (listed + 1) (able + 1) := by
  have same : ((0 < listed ∧ able = listed) ∨
      (j.completed + 1 < j.choose ∧ j.choose ≤ j.completed + 1 + able)) ↔
      ((0 < listed + 1 ∧ able + 1 = listed + 1) ∨
        (j.completed < j.choose ∧ j.choose ≤ j.completed + (able + 1))) := by
    omega
  simp only [canEnd, same]

/-- The group ends with the next thread that finishes. -/
theorem canEnd_of_last (undone : j.done = false) (le : able ≤ listed)
    (enough : listed = 0 ∨ j.completed + 1 = j.choose) :
    j.canEnd (listed + 1) (able + 1) = true := by
  rw [canEnd_iff undone]
  rcases enough with none | last
  · exact Or.inl (by omega)
  · exact Or.inr (by omega)

theorem able_of_canEnd (can : j.canEnd listed able = true) : j.done = false ∧ 0 < able := by
  cases done : j.done with
  | true =>
    rw [canEnd_of_done done] at can
    exact absurd can Bool.false_ne_true
  | false =>
    rw [canEnd_iff done] at can
    exact ⟨rfl, by omega⟩

end Join

namespace Block

theorem TakesAlone.canLeave {b : Block} (takes : b.TakesAlone) (listed able : Nat) :
    b.canLeave listed able = true := by
  obtain ⟨id, image, reminder, handle, hooks, text, activity⟩ := b
  cases activity with
  | counted remaining entered body => exact False.elim takes
  | parallel join => exact False.elim takes
  | _ => rfl

theorem takesAlone_of_canLeave {b : Block} {listed able : Nat} (can : b.canLeave listed able = true)
    (single : b.join? = none) : b.TakesAlone := by
  obtain ⟨id, image, reminder, handle, hooks, text, activity⟩ := b
  cases activity with
  | counted remaining entered body => exact absurd can Bool.false_ne_true
  | parallel join => cases single
  | _ => trivial

theorem canLeave_group {b : Block} {join : Join} (activity : b.activity = .parallel join)
    (listed able : Nat) : b.canLeave listed able = join.canEnd listed able := by
  simp only [canLeave, activity]

theorem Hosts.canLeave {b : Block} {threads : List Thread} (hosts : b.Hosts threads) :
    b.canLeave threads.length threads.length = true := by
  cases group : b.join? with
  | none => exact (hosts.takesAlone group).canLeave _ _
  | some join =>
    have activity := activity_of_join? group
    have is_open : join.Open threads := by simpa only [Hosts, activity] using hosts
    have some_thread := List.length_pos_iff.mpr is_open.ne_nil
    rw [canLeave_group activity, Join.canEnd_iff is_open.undone]
    exact Or.inl ⟨some_thread, rfl⟩

end Block

namespace Execution

variable {e : Execution} {b : Block} {rest : List Block}

theorem canFinish_of_finished (finished : e.finished = true) : e.canFinish = true := by
  obtain ⟨line, threads⟩ := e
  simp only at finished
  simp only [canFinish, finished, Bool.true_or]

theorem canFinish_idle (idle : e.isRunning = false) : e.canFinish = e.finished := by
  obtain ⟨line, threads⟩ := e
  simp only at idle
  simp only [canFinish, idle, Bool.false_and, Bool.or_false]

theorem canFinish_at (running : e.isRunning = true) (now : e.ahead = b :: rest) :
    e.canFinish = b.canLeave e.threads.length (ableThreads e.threads) := by
  obtain ⟨line, threads⟩ := e
  have unfinished : line.finished = false := Sequence.unfinished_of_running running
  simp only at running now
  simp only [canFinish, unfinished, running, now, Bool.false_or, Bool.true_and]

/-- A running execution with another state of its block, or with other threads. -/
theorem canFinish_with_block (running : e.isRunning = true) (b' : Block) (rest : List Block)
    (threads : List Thread) :
    canFinish ⟨{ e.toSequence with ahead := b' :: rest }, threads⟩ =
      b'.canLeave threads.length (ableThreads threads) :=
  canFinish_at (e := ⟨{ e.toSequence with ahead := b' :: rest }, threads⟩) running rfl

theorem running_of_canFinish (can : e.canFinish = true) (unfinished : e.finished = false) :
    e.isRunning = true ∧ ∃ b rest, e.ahead = b :: rest := by
  cases running : e.isRunning with
  | false =>
    rw [canFinish_idle running, unfinished] at can
    exact absurd can Bool.false_ne_true
  | true =>
    cases now : e.ahead with
    | cons b rest => exact ⟨rfl, b, rest, rfl⟩
    | nil =>
      obtain ⟨line, threads⟩ := e
      simp only at unfinished now
      simp [canFinish, unfinished, now] at can

mutual

theorem Settled.canFinish : ∀ {e : Execution}, e.Settled → e.canFinish = true
  | ⟨line, threads⟩, settled => by
    obtain ⟨running, ⟨b, rest, now, hosts⟩, others⟩ := settled
    rw [canFinish_at (e := ⟨line, threads⟩) running now, able_of_settled others]
    exact hosts.canLeave

theorem able_of_settled : ∀ {threads : List Thread}, settledAll threads →
    ableThreads threads = threads.length
  | [], _ => rfl
  | ⟨_, _⟩ :: rest, settled => by
    rw [ableThreads, settled.1.canFinish, able_of_settled settled.2, List.length_cons,
      Bool.toNat_true, Nat.add_comm]

end

theorem Becomes.canFinish {e' : Execution} (moved : e.Becomes e') : e'.canFinish = true := by
  rcases moved.rests with spent | settled
  · exact canFinish_of_finished spent.finished
  · exact settled.canFinish

end Execution

/-- A block that stays can be left just as before, and one that leaves could be left. -/
def Block.Responds (b b' : Block) : Reaction → Prop
  | .stay => ∀ listed able, b'.canLeave listed able = b.canLeave listed able
  | .leave after => (∀ listed able, b.canLeave listed able = true) ∧ ∀ c ∈ after, c.HooksSucceed

theorem Block.Hosts.responds {b b' : Block} (hosts : b.Hosts []) {reaction : Reaction}
    (fares : b'.Fares [] reaction) : b.Responds b' reaction := by
  have leaves {c : Block} (hosts : c.Hosts []) (listed able : Nat) :
      c.canLeave listed able = true := by
    cases group : c.join? with
    | none => exact (hosts.takesAlone group).canLeave listed able
    | some join =>
      simp only [Block.Hosts, Block.activity_of_join? group] at hosts
      exact absurd rfl hosts.ne_nil
  cases reaction with
  | stay =>
    intro listed able
    rw [leaves fares, leaves hosts]
  | leave after =>
    constructor
    · exact leaves hosts
    · exact fares.2

/-- Every block takes or passes over every event, also where a failure has left it. -/
theorem Block.react_responds (reliable : services.Reliable Good) {b : Block}
    (succeed : b.HooksSucceed) (event : Event) {w : World σ} (good : Good w.host) :
    ∃ reaction b' w', b.react services event w = ⟨.ok reaction, b', w'⟩ ∧ Good w'.host ∧
      b'.HooksSucceed ∧ b.Responds b' reaction := by
  have hosted (hosts : b.Hosts []) : ∃ reaction b' w',
      b.react services event w = ⟨.ok reaction, b', w'⟩ ∧ Good w'.host ∧ b'.HooksSucceed ∧
        b.Responds b' reaction := by
    obtain ⟨reaction, b', w', reacted, good', succeed', fares⟩ :=
      b.react_ok reliable hosts succeed event good
    exact ⟨reaction, b', w', reacted, good', succeed', hosts.responds fares⟩
  obtain ⟨id, image, reminder, handle, hooks, text, activity⟩ := b
  cases activity with
  | task => exact hosted rfl
  | condition onYes onNo => exact hosted rfl
  | asked loop body => exact hosted rfl
  | counted remaining entered body =>
    cases event <;> exact ⟨.stay, _, _, rfl, good, succeed, fun _ _ => rfl⟩
  | parallel join => cases event <;> exact ⟨.stay, _, _, rfl, good, succeed, fun _ _ => rfl⟩
  | sleep s =>
    -- A wait may be over before it starts, and a failure can leave such a block current.
    have none_after : ∀ c ∈ ([] : List Block), c.HooksSucceed := List.forall_mem_nil _
    cases event with
    | tick remaining => exact ⟨.stay, _, w, rfl, good, succeed, fun _ _ => rfl⟩
    | elapsed => exact ⟨.leave [], _, w, rfl, good, succeed, fun _ _ => rfl, none_after⟩
    | skip =>
      obtain ⟨w', forced, good'⟩ := World.ask_ok reliable.forceFinish .forceFinish good
      have spent : (⟨id, image, reminder, handle, hooks, text, .sleep s⟩ : Block).react services
          .skip w = ⟨.ok (.leave []), ⟨id, image, reminder, handle, hooks, text,
            .sleep { s with remaining := .zero }⟩, w'⟩ := by
        simp only [react, World.forceFinish, forced]
      exact ⟨.leave [], _, w', spent, good', succeed, fun _ _ => rfl, none_after⟩
    | _ => exact ⟨.stay, _, _, rfl, good, succeed, fun _ _ => rfl⟩

namespace Execution

variable {e : Execution} {b : Block} {rest : List Block}

section Group

variable {join : Join} {before after : List Thread} {t : Thread} {x : Execution} {w : World σ}

/-- A thread that has finished is counted and the group goes on, or it was joined before and stays
without threads, or it ends with this. -/
theorem afterThread_cases {motive : Outcome σ Execution Unit → Prop}
    (reliable : services.Reliable Good) (running : e.isRunning = true) (succeed : b.HooksSucceed)
    (rest_hooks : ∀ c ∈ rest, c.HooksSucceed) (others : hooksSucceed (before ++ after))
    (finished : x.finished = true) (good : Good w.host)
    (counts : before ++ after ≠ [] → join.completed + 1 ≠ join.choose →
      motive ⟨.ok (), ⟨{ e.toSequence with ahead := { b with
        activity := .parallel { join with completed := join.completed + 1 } } :: rest },
        before ++ after⟩, w⟩)
    (joined : join.done = true → ∀ w' : World σ, Good w'.host →
      motive ⟨.ok (), ⟨{ e.toSequence with ahead := { b with
        activity := .parallel { join with completed := join.completed + 1 } } :: rest }, []⟩, w'⟩)
    (ends : join.done = false → (before ++ after = [] ∨ join.completed + 1 = join.choose) →
      ∀ e' (w' : World σ), Good w'.host → e.Becomes e' → e'.toil ≤ blocksEffort rest →
        motive ⟨.ok (), e', w'⟩) :
    motive (e.afterThread services b rest join before after { t with execution := x } w) := by
  by_cases enough : before ++ after = [] ∨ join.completed + 1 = join.choose
  · cases done : join.done with
    | true =>
      obtain ⟨v, cancelled, good_v⟩ := cancelThreads_ok reliable others good
      have test : (before ++ after).isEmpty = true ∨ join.completed + 1 = join.choose := by
        simpa only [List.isEmpty_iff] using enough
      have completed : join.complete services (before ++ after) w =
          ⟨.ok false, ({ join with completed := join.completed + 1 }, []), v⟩ := by
        simp only [Join.complete, test, if_true, cancelled, Outcome.bind, done]
      simp only [afterThread, finished, if_true, completed, Outcome.bind, Bool.false_eq_true,
        if_false]
      exact joined done v good_v
    | false =>
      obtain ⟨u, joins, good_u⟩ := afterThread_joins (e := e) (reliable.cancels fun _ => True)
        (allCountIn_all (fun _ => trivial) _) rest finished enough done succeed others good
      obtain ⟨e', w', entered, good', moved, -, bound⟩ :=
        enter_becomes reliable running (endedGroup b join) rest_hooks good_u
      rw [joins, entered]
      exact ends done enough e' w' good' moved bound
  · rw [afterThread_counts finished (fun h => enough (Or.inl h)) (fun h => enough (Or.inr h))]
    exact counts (fun h => enough (Or.inl h)) (fun h => enough (Or.inr h))

end Group

/-- The operation is answered, and what is left can finish just if `able`. -/
def LeavesAble (Good : σ → Prop) (able : Bool) (o : Outcome σ Execution Unit) : Prop :=
  ∃ e' w', o = ⟨.ok (), e', w'⟩ ∧ Good w'.host ∧ e'.HooksSucceed ∧ e'.canFinish = able

/-- A thread of the group has become `x`, which can finish just if the thread could. -/
theorem afterThread_canFinish (reliable : services.Reliable Good) (quiet : e.HooksSucceed)
    (running : e.isRunning = true) (now : e.ahead = b :: rest) {join : Join}
    (group : b.join? = some join) {before after : List Thread} {t : Thread}
    (threads : e.threads = before ++ t :: after) {x : Execution} (x_quiet : x.HooksSucceed)
    (same : x.canFinish = t.execution.canFinish) {w : World σ} (good : Good w.host) :
    LeavesAble Good e.canFinish
      (e.afterThread services b rest join before after { t with execution := x } w) := by
  have activity := Block.activity_of_join? group
  obtain ⟨succeed, rest_hooks, threads_hooks⟩ := quiet.at_cons now
  rw [threads, hooksSucceed_append, hooksSucceed_cons] at threads_hooks
  have others := (hooksSucceed_append _ _).mpr ⟨threads_hooks.1, threads_hooks.2.2⟩
  have able := ableThreads_between before after t
  have le := ableThreads_le (before ++ after)
  have count : e.threads.length = (before ++ after).length + 1 := by
    rw [threads, List.length_append, List.length_append, List.length_cons, Nat.add_assoc]
  have can : e.canFinish = join.canEnd e.threads.length (ableThreads e.threads) := by
    rw [canFinish_at running now, Block.canLeave_group activity]
  cases finished : x.finished with
  | false =>
    rw [afterThread_runs finished]
    refine ⟨_, w, rfl, good, ?_, ?_⟩
    · rw [hooksSucceed_iff]
      exact ⟨((hooksSucceed_iff e).mp quiet).1, (hooksSucceed_append _ _).mpr
        ⟨threads_hooks.1, (hooksSucceed_cons _ _).mpr ⟨x_quiet, threads_hooks.2.2⟩⟩⟩
    · have replaced : ableThreads (before ++ { t with execution := x } :: after) =
          ableThreads e.threads := by
        rw [threads, ableThreads_between, ableThreads_between, same]
      rw [canFinish_at (e := { e with threads := before ++ { t with execution := x } :: after })
        running now, can, Block.canLeave_group activity, replaced, threads]
      simp only [List.length_append, List.length_cons]
  | true =>
    have t_can : t.execution.canFinish.toNat = 1 := by
      rw [← same, canFinish_of_finished finished, Bool.toNat_true]
    rw [can, count, threads, able, t_can]
    refine afterThread_cases reliable running succeed rest_hooks others finished good ?_ ?_ ?_
    · intro some_left few
      refine ⟨_, w, rfl, good, .with_block succeed rest_hooks others, ?_⟩
      rw [canFinish_with_block running,
        Block.canLeave_group rfl, Join.canEnd_counted (List.length_pos_iff.mpr some_left) few]
    · intro done w' good'
      refine ⟨_, w', rfl, good', .with_block succeed rest_hooks trivial, ?_⟩
      rw [canFinish_with_block running,
        Block.canLeave_group rfl, Join.canEnd_of_done done,
        Join.canEnd_of_done (j := { join with completed := join.completed + 1 }) done]
    · intro undone enough e' w' good' moved _
      refine ⟨e', w', rfl, good', moved.hooks, ?_⟩
      rw [moved.canFinish, Join.canEnd_of_last undone le]
      rwa [List.length_eq_zero_iff]

theorem dispatch_canFinish (reliable : services.Reliable Good) (quiet : e.HooksSucceed)
    (event : Event) (path : List Nat) {w : World σ} (good : Good w.host) :
    LeavesAble Good e.canFinish (e.dispatch services event path w) := by
  induction steps : path.length using Nat.strongRecOn generalizing e w path with
  | ind n ih =>
  subst steps
  refine dispatch_cases path (fun notice => ⟨e, _, rfl, good, quiet, rfl⟩) ?here ?thread
  case here =>
    intro b rest running now
    obtain ⟨succeed, rest_hooks, threads_hooks⟩ := quiet.at_cons now
    obtain ⟨reaction, b', v, reacted, good_v, succeed', responds⟩ :=
      b.react_responds reliable succeed event good
    rw [reacted, Outcome.bind_ok, canFinish_at running now]
    cases reaction with
    | stay =>
      refine ⟨_, v, rfl, good_v, .with_block succeed' rest_hooks threads_hooks, ?_⟩
      rw [canFinish_with_block running]
      exact responds _ _
    | leave after =>
      obtain ⟨u, left, good_u⟩ := leave_ok reliable succeed' threads_hooks (after ++ rest) good_v
      have ahead_hooks : ∀ c ∈ after ++ rest, c.HooksSucceed := by
        intro c mem
        rcases List.mem_append.mp mem with mem | mem
        · exact responds.2 c mem
        · exact rest_hooks c mem
      obtain ⟨e', w', entered, good', moved, -⟩ :=
        enter_becomes reliable running b'.ended ahead_hooks good_u
      refine ⟨e', w', left.trans entered, good', moved.hooks, ?_⟩
      rw [moved.canFinish, responds.1]
  case thread =>
    intro b rest join before t after further running now group threads shorter
    have mem : t ∈ e.threads := by simp [threads]
    have t_quiet := (hooksSucceed_forall _).mp (quiet.at_cons now).2.2 t mem
    obtain ⟨x, v, delivered, good_v, x_quiet, same⟩ := ih _ shorter t_quiet further good rfl
    rw [delivered, Outcome.bind_ok]
    exact afterThread_canFinish reliable quiet running now group threads x_quiet same good_v

end Execution

mutual

/-- The effort that is left to an execution, with one for each thread that has nothing ahead but is
still listed. -/
def Execution.burden : Execution → Nat
  | ⟨line, threads⟩ =>
    match line.ahead with
    | [] => 1
    | b :: rest => b.toil (burdenAll threads) + blocksEffort rest

def burdenAll : List Thread → Nat
  | [] => 0
  | ⟨_, execution⟩ :: rest => execution.burden + burdenAll rest

end

theorem burdenAll_cons (t : Thread) (rest : List Thread) :
    burdenAll (t :: rest) = t.execution.burden + burdenAll rest := by
  obtain ⟨branch, execution⟩ := t
  rw [burdenAll]

theorem burdenAll_append (first second : List Thread) :
    burdenAll (first ++ second) = burdenAll first + burdenAll second := by
  induction first with
  | nil => simp [burdenAll]
  | cons t rest ih => rw [List.cons_append, burdenAll_cons, burdenAll_cons, ih, Nat.add_assoc]

theorem burdenAll_between (before after : List Thread) (t : Thread) :
    burdenAll (before ++ t :: after) = burdenAll (before ++ after) + t.execution.burden := by
  rw [burdenAll_append, burdenAll_append, burdenAll_cons]
  omega

namespace Execution

variable {e : Execution} {b : Block} {rest : List Block}

theorem burden_with_block (line : Sequence) (b : Block) (rest : List Block)
    (threads : List Thread) :
    burden ⟨{ line with ahead := b :: rest }, threads⟩ =
      b.toil (burdenAll threads) + blocksEffort rest := by
  rw [burden]

theorem burden_cons (now : e.ahead = b :: rest) :
    e.burden = b.toil (burdenAll e.threads) + blocksEffort rest := by
  obtain ⟨line, threads⟩ := e
  simp only [burden]
  simp only at now
  rw [now]

theorem burden_pos (e : Execution) : 0 < e.burden := by
  cases now : e.ahead with
  | nil =>
    obtain ⟨line, threads⟩ := e
    simp only at now
    simp only [burden, now, Nat.lt_add_one]
  | cons b rest =>
    have positive := b.effort_pos
    rw [burden_cons now]
    unfold Block.toil
    split <;> omega

mutual

theorem Settled.burden : ∀ {e : Execution}, e.Settled → e.burden = e.toil
  | ⟨line, threads⟩, settled => by
    obtain ⟨running, ⟨b, rest, now, hosts⟩, others⟩ := settled
    rw [burden_cons (e := ⟨line, threads⟩) now, toil_cons (e := ⟨line, threads⟩) now,
      burdenAll_of_settled others]

theorem burdenAll_of_settled : ∀ {threads : List Thread}, settledAll threads →
    burdenAll threads = toilAll threads
  | [], _ => rfl
  | ⟨_, _⟩ :: rest, settled => by
    rw [burdenAll, toilAll, settled.1.burden, burdenAll_of_settled settled.2]

end

/-- The execution has finished, or less is left to be done than `burden`. -/
def Nearer (burden : Nat) (e : Execution) : Prop := e.finished = true ∨ e.burden < burden

theorem Becomes.nearer {e' : Execution} (moved : e.Becomes e') {burden : Nat}
    (less : e'.toil < burden) : e'.Nearer burden := by
  rcases moved.rests with spent | settled
  · exact Or.inl spent.finished
  · exact Or.inr (by rwa [settled.burden])

/-- An event at which the current block leaves, for less than it needs itself. -/
theorem nearer_of_reaction (reliable : services.Reliable Good) (quiet : e.HooksSucceed)
    (running : e.isRunning = true) (now : e.ahead = b :: rest) (takes : b.TakesAlone)
    {event : Event} {after : List Block} {b' : Block} {w v : World σ}
    (reacted : b.react services event w = ⟨.ok (.leave after), b', v⟩) (good : Good v.host)
    (succeed : b'.HooksSucceed) (after_hooks : ∀ c ∈ after, c.HooksSucceed)
    (less : blocksEffort after < b.effort) :
    (e.dispatch services event [] w).part.Nearer e.burden := by
  obtain ⟨-, rest_hooks, threads_hooks⟩ := quiet.at_cons now
  obtain ⟨u, left, good_u⟩ := leave_ok reliable succeed threads_hooks (after ++ rest) good
  have ahead_hooks : ∀ c ∈ after ++ rest, c.HooksSucceed := by
    intro c mem
    rcases List.mem_append.mp mem with mem | mem
    · exact after_hooks c mem
    · exact rest_hooks c mem
  obtain ⟨e', w', entered, -, moved, -, bound⟩ :=
    enter_becomes reliable running b'.ended ahead_hooks good_u
  have delivered : e.dispatch services event [] w = ⟨.ok (), e', w'⟩ := by
    simp only [dispatch_here running now, reacted, Outcome.bind, left, entered]
  have single : b.join? = none := by
    cases group : b.join? with
    | none => rfl
    | some join => simp only [Block.TakesAlone, Block.activity_of_join? group] at takes
  rw [delivered]
  apply moved.nearer
  rw [blocksEffort_append] at bound
  rw [burden_cons now, Block.toil_of_single single]
  omega

theorem nearer_of_leave (reliable : services.Reliable Good) (quiet : e.HooksSucceed)
    (running : e.isRunning = true) (now : e.ahead = b :: rest) (takes : b.TakesAlone) :
    ∃ event, ∀ w : World σ, Good w.host →
      (e.dispatch services event [] w).part.Nearer e.burden := by
  obtain ⟨event, leaves⟩ := Block.leaves_lighter services Good takes (quiet.at_cons now).1
  refine ⟨event, fun w good => ?_⟩
  obtain ⟨after, b', v, reacted, good_v, succeed', after_hooks, less⟩ := leaves w good
  exact nearer_of_reaction reliable quiet running now takes reacted good_v succeed' after_hooks less

/-- An event for a thread that has finished is passed over, and the group then counts the thread. -/
theorem nearer_of_finished (t : Execution) (finished : t.finished = true) (event : Event)
    (w : World σ) : (t.dispatch services event [] w).part.finished = true := by
  have idle : t.isRunning = false := by
    simp only [Sequence.isRunning, finished, Bool.not_true, Bool.and_false, Bool.false_and]
  rw [dispatch_idle idle]
  exact finished

/-- An event that brings a thread nearer to its end does so for its group, which can still end. -/
theorem nearer_of_thread (reliable : services.Reliable Good) (quiet : e.HooksSucceed)
    (running : e.isRunning = true) (now : e.ahead = b :: rest) {join : Join}
    (group : b.join? = some join) (undone : join.done = false) {before after : List Thread}
    {t : Thread} (found : findThread t.branch e.threads = some (before, t, after)) {event : Event}
    {path : List Nat} {w : World σ} (good : Good w.host)
    (nearer : (t.execution.dispatch services event path w).part.Nearer t.execution.burden) :
    (e.dispatch services event (t.branch :: path) w).part.Nearer e.burden := by
  have activity := Block.activity_of_join? group
  have threads := (findThread_some found).1
  obtain ⟨succeed, rest_hooks, threads_hooks⟩ := quiet.at_cons now
  rw [threads, hooksSucceed_append, hooksSucceed_cons] at threads_hooks
  have others := (hooksSucceed_append _ _).mpr ⟨threads_hooks.1, threads_hooks.2.2⟩
  have positive := t.execution.burden_pos
  have whole : e.burden = 1 + (burdenAll (before ++ after) + t.execution.burden) +
      blocksEffort rest := by
    rw [burden_cons now, threads, burdenAll_between]
    simp only [Block.toil, activity]
  obtain ⟨x, v, delivered, good_v, -⟩ :=
    dispatch_canFinish reliable threads_hooks.2.1 event path good
  rw [dispatch_thread running now group found, delivered, Outcome.bind_ok]
  rw [delivered] at nearer
  cases finished : x.finished with
  | false =>
    have less : x.burden < t.execution.burden := by
      rcases nearer with ended | less
      · exact absurd (finished.symm.trans ended) Bool.false_ne_true
      · exact less
    rw [afterThread_runs finished]
    right
    rw [whole, burden_cons (e := { e with threads := before ++ { t with execution := x } :: after })
      now, burdenAll_between]
    simp only [Block.toil, activity]
    omega
  | true =>
    refine afterThread_cases (motive := fun o => o.part.Nearer e.burden) reliable running succeed
      rest_hooks others finished good_v ?_ ?_ ?_
    · intro _ _
      right
      rw [whole, burden_with_block]
      simp only [Block.toil]
      omega
    · intro done
      exact absurd (undone.symm.trans done) Bool.false_ne_true
    · intro _ _ e' w' _ moved bound
      exact moved.nearer (by omega)

/-- Where an execution can finish, some event brings its end nearer. -/
theorem exists_nearer (reliable : services.Reliable Good) (addressed : e.Addressed)
    (quiet : e.HooksSucceed) (unfinished : e.finished = false) (can : e.canFinish = true) :
    ∃ path event, ∀ w : World σ, Good w.host →
      (e.dispatch services event path w).part.Nearer e.burden := by
  induction size : e.burden using Nat.strongRecOn generalizing e with
  | ind n ih =>
  subst size
  obtain ⟨running, b, rest, now⟩ := running_of_canFinish can unfinished
  rw [canFinish_at running now] at can
  cases group : b.join? with
  | none =>
    obtain ⟨event, nearer⟩ :=
      nearer_of_leave reliable quiet running now (Block.takesAlone_of_canLeave can group)
    exact ⟨[], event, nearer⟩
  | some join =>
    have activity := Block.activity_of_join? group
    rw [Block.canLeave_group activity] at can
    obtain ⟨undone, some_able⟩ := Join.able_of_canEnd can
    obtain ⟨t, mem, t_can⟩ := exists_able some_able
    obtain ⟨before, after, threads⟩ := List.append_of_mem mem
    have numbered := addressed_iff.mp addressed
    have found : findThread t.branch e.threads = some (before, t, after) := by
      have increasing := numbered.increasing
      rw [threads] at increasing ⊢
      exact findThread_increasing increasing
    have t_quiet := (hooksSucceed_forall _).mp (quiet.at_cons now).2.2 t mem
    have inside : ∃ path event, ∀ w : World σ, Good w.host →
        (t.execution.dispatch services event path w).part.Nearer t.execution.burden := by
      cases finished : t.execution.finished with
      | true => exact ⟨[], .done, fun w _ => Or.inl (nearer_of_finished _ finished .done w)⟩
      | false =>
        refine ih _ ?_ (numbered.inside t mem) t_quiet finished t_can rfl
        rw [burden_cons now, threads, burdenAll_between]
        simp only [Block.toil, activity]
        omega
    obtain ⟨path, event, nearer⟩ := inside
    exact ⟨t.branch :: path, event, fun w good =>
      nearer_of_thread reliable quiet running now group undone found good (nearer w good)⟩

end Execution

namespace Run

/-- The host answers again, and no callback is going to fail. -/
structure Recovered (Good : σ → Prop) (r : Run σ) : Prop where
  good : Good r.world.host
  quiet : r.root.HooksSucceed
  inOrder : r.InOrder

variable {r : Run σ}

/-- An event neither strands a run nor saves it. -/
theorem Recovered.dispatch (reliable : services.Reliable Good) (recovered : r.Recovered Good)
    (path : List Nat) (event : Event) :
    (r.perform services (.dispatch path event)).Recovered Good ∧
      (r.perform services (.dispatch path event)).root.canFinish = r.root.canFinish := by
  have inOrder := inOrder_perform services r (.dispatch path event) recovered.inOrder
  obtain ⟨e', w', delivered, good', quiet', same⟩ :=
    Execution.dispatch_canFinish reliable recovered.quiet event path recovered.good
  have next : r.perform services (.dispatch path event) = ⟨e', w'⟩ := by
    simp only [perform, Run.dispatch, delivered, ofOutcome]
  rw [next] at inOrder ⊢
  exact ⟨⟨good', quiet', inOrder⟩, same⟩

theorem Recovered.deliver (reliable : services.Reliable Good) (recovered : r.Recovered Good)
    (moves : List (List Nat × Event)) :
    (r.deliver services moves).root.canFinish = r.root.canFinish := by
  induction moves generalizing r with
  | nil => rfl
  | cons move moves ih =>
    obtain ⟨next, same⟩ := recovered.dispatch reliable move.1 move.2
    exact (ih next).trans same

/-- Events that each bring the end nearer finish the run. -/
theorem Recovered.finishes (reliable : services.Reliable Good) (recovered : r.Recovered Good)
    (can : r.root.canFinish = true) :
    ∃ moves, (r.deliver services moves).root.finished = true := by
  induction size : r.root.burden using Nat.strongRecOn generalizing r with
  | ind n ih =>
  subst size
  cases unfinished : r.root.finished with
  | true => exact ⟨[], unfinished⟩
  | false =>
    obtain ⟨path, event, nearer⟩ := Execution.exists_nearer reliable recovered.inOrder.addressed
      recovered.quiet unfinished can
    obtain ⟨next, same⟩ := recovered.dispatch reliable path event
    rcases nearer r.world recovered.good with finished | less
    · exact ⟨[(path, event)], finished⟩
    · obtain ⟨moves, finished⟩ := ih _ less next (same.trans can) rfl
      exact ⟨(path, event) :: moves, finished⟩

/-- Whatever the host refused and whichever callbacks failed in the calls so far, from where all
work again: some list of events finishes the run just if its tree can finish. -/
theorem finishes_iff (reliable : services.Reliable Good) {blocks : List HostBlock}
    (fresh : r.Fresh blocks) (calls : List Call) (good : Good (r.after services calls).world.host)
    (quiet : (r.after services calls).root.HooksSucceed) :
    (∃ moves, ((r.after services calls).deliver services moves).root.finished = true) ↔
      (r.after services calls).root.canFinish = true := by
  have recovered : (r.after services calls).Recovered Good :=
    ⟨good, quiet, fresh.inOrder_after services calls⟩
  constructor
  · rintro ⟨moves, finished⟩
    rw [← recovered.deliver reliable moves]
    exact Execution.canFinish_of_finished finished
  · exact recovered.finishes reliable

/-- A wavering host that refuses nothing any more. -/
structure Steady (h : InMemory × List Bool) : Prop where
  willing : h.1.Willing
  decided : h.2 = []

instance : DecidablePred Steady := fun h =>
  decidable_of_iff
    (h.1.reminders.failing = false ∧ h.1.countdown.failing = false ∧ h.2 = [])
    ⟨fun ⟨reminders, countdown, decided⟩ => ⟨⟨reminders, countdown⟩, decided⟩,
      fun steady => ⟨steady.willing.reminders, steady.willing.countdown, steady.decided⟩⟩

theorem grants_waver {α : Type} {call : InMemory → Except ServiceError α × InMemory}
    (grants : Grants InMemory.Willing call) : Grants Steady (wavering.waver call) := by
  rintro ⟨m, plan⟩ ⟨willing, rfl⟩
  obtain ⟨a, m', called, willing'⟩ := grants m willing
  refine ⟨a, (m', []), ?_, willing', rfl⟩
  simp only [wavering.waver, called, List.tail_nil]

theorem reliable_wavering : wavering.Reliable Steady where
  addReminder label r := grants_waver (InMemory.reliable.addReminder label r)
  removeReminder id := grants_waver (InMemory.reliable.removeReminder id)
  setPaused paused := grants_waver (InMemory.reliable.setPaused paused)
  startCountdown value unit route :=
    grants_waver (InMemory.reliable.startCountdown value unit route)
  forceFinish := grants_waver InMemory.reliable.forceFinish
  cancelCountdown route := grants_waver (InMemory.reliable.cancelCountdown route)

/-- Two of three are asked for. The second request, for a countdown, is refused, so that the third
thread is never started. -/
def pudding : Run (InMemory × List Bool) :=
  .ofWorkflow ⟨"pudding", none, none, [.parallel "two of three" 2
    [[(Template.task "stir").withReminder ⟨1, .minutes⟩], [.sleep 5 .minutes "cool" false],
      [.task "taste"]], .task "serve"]⟩ (.empty, [false, true])

/-- The two threads that were reached are enough. -/
theorem finishes_iff_pudding :
    let started := pudding.after wavering [.start]
    (started.root.threads.map (·.execution.isRunning) = [true, true, false] ∧
      started.root.isRunning = true) ∧
    ∃ moves, (started.deliver wavering moves).root.finished = true :=
  ⟨by decide +kernel,
    (finishes_iff reliable_wavering (fresh_ofWorkflow _ _) [.start] (by decide +kernel)
      (by decide +kernel)).mpr (by decide +kernel)⟩

/-- A group that ends with its first thread. The third request, to cancel the countdown of the other
thread, is refused. -/
def soupServed : Run (InMemory × List Bool) :=
  .ofWorkflow ⟨"soup", none, none, [.parallel "either" 1 [[.task "serve"],
    [(Template.sleep 5 .minutes "cool" false).withReminder ⟨1, .minutes⟩]]]⟩
    (.empty, [false, false, true])

/-- The group has given its threads up and does not end, and no event is left to be taken. -/
theorem soupServed_stranded :
    let served := soupServed.after wavering [.start, .dispatch [0] .done]
    (Steady served.world.host ∧ served.root.HooksSucceed ∧ served.root.isRunning = true) ∧
      ¬ ∃ moves, (served.deliver wavering moves).root.finished = true := by
  intro served
  have good : Steady served.world.host := by decide +kernel
  have quiet : served.root.HooksSucceed := by decide +kernel
  have recovered : served.Recovered Steady :=
    ⟨good, quiet, (fresh_ofWorkflow _ _).inOrder_after wavering _⟩
  refine ⟨⟨good, quiet, by decide +kernel⟩, ?_⟩
  rintro ⟨moves, finished⟩
  have stranded : served.root.canFinish = false := by decide +kernel
  have same := recovered.deliver reliable_wavering moves
  rw [stranded, Execution.canFinish_of_finished finished] at same
  exact Bool.true_eq_false.mp same

end Run

end Stepwise
