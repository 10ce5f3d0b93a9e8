import Stepwise.Proofs.Progress

/-!
# How parallel groups end

A group counts the threads that run out. It is left in the call in which the count reaches its
target, be it that the call enters the group or that it delivers an event to one of its threads, and
it is left in no other call, except that a group in which it is nested may end and cancel it.
-/

namespace Stepwise

variable {σ : Type} {Good : σ → Prop} {services : Services σ}

theorem findThread_find (branch : Nat) (threads : List Thread) :
    (findThread branch threads).map (·.2.1) = threads.find? (·.branch = branch) := by
  induction threads with
  | nil => rfl
  | cons t rest ih =>
    by_cases same : t.branch = branch
    · simp [findThread, same]
    · simp [findThread, same, ← ih, Function.comp_def]

namespace Execution

variable {e : Execution}

theorem thread?_cons (branch : Nat) (path : List Nat) (e : Execution) :
    e.thread? (branch :: path) =
      (e.threads.find? (·.branch = branch)).bind fun t => t.execution.thread? path := by
  rw [thread?, ← findThread_find]
  cases findThread branch e.threads with
  | none => rfl
  | some parts => rfl

theorem thread?_found {branch : Nat} {path : List Nat} {x : Execution}
    (found : e.thread? (branch :: path) = some x) :
    ∃ t ∈ e.threads, e.threads.find? (·.branch = branch) = some t ∧ t.branch = branch ∧
      t.execution.thread? path = some x := by
  rw [thread?_cons] at found
  obtain ⟨t, first, inside⟩ := Option.bind_eq_some_iff.mp found
  have same := List.find?_some first
  simp only [decide_eq_true_eq] at same
  exact ⟨t, List.mem_of_find?_eq_some first, first, same, inside⟩

theorem thread?_append (e : Execution) (path deeper : List Nat) :
    e.thread? (path ++ deeper) = (e.thread? path).bind (·.thread? deeper) := by
  induction path generalizing e with
  | nil => rfl
  | cons branch path ih =>
    rw [List.cons_append, thread?_cons, thread?_cons, Option.bind_assoc]
    exact Option.bind_congr fun t _ => ih t.execution

/-- Where there are no threads, no path leads anywhere. -/
theorem thread?_threadless {x : Execution} {path : List Nat} (none : e.threads = [])
    (found : e.thread? path = some x) : path = [] ∧ x = e := by
  cases path with
  | nil => exact ⟨rfl, (Option.some.inj found).symm⟩
  | cons branch path =>
    rw [thread?_cons, none] at found
    cases found

/-- Threads of a sequence that has run out are not to be found. -/
theorem Over.thread? {e x : Execution} {path : List Nat} (spent : e.Over)
    (found : e.thread? path = some x) : path = [] ∧ x = e :=
  thread?_threadless spent.threads found

theorem Settled.thread? {x : Execution} {path : List Nat} (settled : e.Settled)
    (found : e.thread? path = some x) : x.Settled := by
  induction path generalizing e with
  | nil =>
    cases found
    exact settled
  | cons branch path ih =>
    obtain ⟨t, mem, -, -, inside⟩ := thread?_found found
    exact ih (((settled_iff e).mp settled).2.2 t mem) inside

theorem HooksSucceed.thread? {x : Execution} {path : List Nat} (quiet : e.HooksSucceed)
    (found : e.thread? path = some x) : x.HooksSucceed := by
  induction path generalizing e with
  | nil =>
    cases found
    exact quiet
  | cons branch path ih =>
    obtain ⟨t, mem, -, -, inside⟩ := thread?_found found
    have threads := ((hooksSucceed_iff e).mp quiet).2
    exact ih ((hooksSucceed_forall _).mp threads t mem) inside

end Execution

namespace Join.Open

variable {j : Join} {before after : List Thread} {t : Thread}

theorem find_replaced (h : j.Open (before ++ t :: after)) (t' : Thread)
    (same : t'.branch = t.branch) :
    (before ++ t' :: after).find? (·.branch = t.branch) = some t' :=
  find_increasing h.increasing same

theorem thread?_replaced (h : j.Open (before ++ t :: after)) (e x : Execution) (path : List Nat) :
    ({ e with threads := before ++ { t with execution := x } :: after } : Execution).thread?
      (t.branch :: path) = x.thread? path := by
  have found := h.find_replaced { t with execution := x } rfl
  simp only [Execution.thread?_cons, found, Option.bind_some]

end Join.Open

theorem find_other {before after : List Thread} {t : Thread} {branch : Nat}
    (other : t.branch ≠ branch) :
    (before ++ t :: after).find? (·.branch = branch) =
      (before ++ after).find? (·.branch = branch) := by
  simp [List.find?_append, other]

namespace Execution

/-- The current block of an execution is a group. -/
structure AtGroup (x : Execution) (b : Block) (rest : List Block) (join : Join) : Prop where
  now : x.ahead = b :: rest
  activity : b.activity = .parallel join

/-- An event that goes to the thread `t` of a group changes that thread only, or takes it off the
group, or ends the group: then the blocks behind it are entered in the same call. -/
structure GroupTakes (services : Services σ) (event : Event) (deeper : List Nat) (w : World σ)
    (x : Execution) (b : Block) (rest : List Block) (join : Join) (before : List Thread) (t : Thread)
    (after : List Thread) : Prop where
  runs : (t.execution.dispatch services event deeper w).part.finished = false →
    (x.dispatch services event (t.branch :: deeper) w).part = { x with
      threads := before ++
        { t with execution := (t.execution.dispatch services event deeper w).part } :: after }
  counts : (t.execution.dispatch services event deeper w).part.finished = true →
    join.completed + 1 ≠ join.target →
    (x.dispatch services event (t.branch :: deeper) w).part =
      ⟨{ x.toSequence with ahead := { b with
        activity := .parallel { join with completed := join.completed + 1 } } :: rest },
        before ++ after⟩
  ends : (t.execution.dispatch services event deeper w).part.finished = true →
    join.completed + 1 = join.target →
    ∃ left w', left.activity = .parallel { join with completed := join.target, done := true } ∧
      x.dispatch services event (t.branch :: deeper) w =
        Execution.enter services ⟨x.advance left rest, []⟩ w' ∧
      left :: x.behind <:+ (x.dispatch services event (t.branch :: deeper) w).part.behind

/-- The event finishes the last thread that the current group needs. -/
def EndsGroup (services : Services σ) (event : Event) (path : List Nat) (w : World σ)
    (x : Execution) : Prop :=
  ∃ b rest join before t after deeper, x.AtGroup b rest join ∧ path = t.branch :: deeper ∧
    x.threads = before ++ t :: after ∧
    (t.execution.dispatch services event deeper w).part.finished = true ∧
    join.completed + 1 = join.target

/-- The group `join` is still current after `x` has become `x'`. -/
def KeepsGroup (join : Join) (x x' : Execution) : Prop :=
  x'.behind = x.behind ∧ ∃ b' rest' join', x'.AtGroup b' rest' join' ∧
    join'.branches = join.branches ∧ join'.choose = join.choose ∧ join.completed ≤ join'.completed

variable {e x : Execution} {b : Block} {rest : List Block} {join : Join}

theorem AtGroup.keeps_self (group : x.AtGroup b rest join) : KeepsGroup join x x :=
  ⟨rfl, b, rest, join, group, rfl, rfl, Nat.le_refl _⟩

theorem Settled.at_group (settled : x.Settled) (group : x.AtGroup b rest join) :
    join.Open x.threads := by
  obtain ⟨-, ⟨c, cs, now, hosts⟩, -⟩ := (settled_iff x).mp settled
  obtain ⟨rfl, rfl⟩ := List.cons.inj (group.now.symm.trans now)
  simpa only [Block.Hosts, group.activity] using hosts

/-- An execution that has threads is at a group. -/
theorem Settled.atGroup_of_mem {t : Thread} (settled : x.Settled) (mem : t ∈ x.threads) :
    ∃ b rest join, x.AtGroup b rest join := by
  obtain ⟨-, ⟨b, rest, now, hosts⟩, -⟩ := (settled_iff x).mp settled
  have some_thread : x.threads ≠ [] := List.ne_nil_of_mem mem
  unfold Block.Hosts at hosts
  split at hosts
  · exact absurd hosts some_thread
  · exact absurd hosts some_thread
  · exact absurd hosts some_thread
  · exact absurd hosts.2 some_thread
  · next join activity => exact ⟨b, rest, join, now, activity⟩
  · exact hosts.elim

theorem AtGroup.join? (group : x.AtGroup b rest join) : b.join? = some join := by
  simp only [Block.join?, group.activity]

/-- A group passes over every event that is meant for itself. -/
theorem AtGroup.dispatch_here (group : x.AtGroup b rest join) (running : x.isRunning = true)
    (event : Event) (w : World σ) : x.dispatch services event [] w =
      ⟨.ok (), x, w.passOver (.notApplicable event b.type b.shownText)⟩ := by
  rw [Execution.dispatch_here running group.now]
  have passed : b.react services event w =
      ⟨.ok .stay, b, w.passOver (.notApplicable event b.type b.shownText)⟩ := by
    unfold Block.react
    rw [group.activity]
    cases event <;> rfl
  rw [passed]
  simp only [Outcome.bind, ← group.now]
  cases x
  rfl

end Execution

theorem findThread_increasing {before after : List Thread} {t : Thread}
    (increasing : (before ++ t :: after).Pairwise fun s t => s.branch < t.branch) :
    findThread t.branch (before ++ t :: after) = some (before, t, after) := by
  induction before with
  | nil => simp [Stepwise.findThread]
  | cons s before ih =>
    rw [List.cons_append, List.pairwise_cons] at increasing
    have lower := increasing.1 t (by simp)
    have differs : s.branch ≠ t.branch := by omega
    simp [Stepwise.findThread, differs, ih increasing.2]

theorem Join.Open.findThread {j : Join} {before after : List Thread} {t : Thread}
    (h : j.Open (before ++ t :: after)) :
    findThread t.branch (before ++ t :: after) = some (before, t, after) :=
  findThread_increasing h.increasing

namespace Execution

variable {e x : Execution} {b : Block} {rest : List Block} {join : Join}
  {before after : List Thread}
  {t : Thread}

theorem Settled.groupTakes (reliable : services.Reliable Good) (settled : x.Settled)
    (quiet : x.HooksSucceed) (group : x.AtGroup b rest join)
    (threads : x.threads = before ++ t :: after) (event : Event) (deeper : List Nat) {w : World σ}
    (good : Good w.host) : GroupTakes services event deeper w x b rest join before t after := by
  have is_open := settled.at_group group
  have running := settled.isRunning
  obtain ⟨succeed, rest_hooks, threads_hooks⟩ := quiet.at_cons group.now
  rw [threads] at is_open threads_hooks
  have found : findThread t.branch x.threads = some (before, t, after) := by
    rw [threads]
    exact is_open.findThread
  have mem : t ∈ x.threads := by simp [threads]
  rw [hooksSucceed_append, hooksSucceed_cons] at threads_hooks
  obtain ⟨t', v, delivered, good_v, -⟩ := dispatch_becomes reliable
    (((settled_iff x).mp settled).2.2 t mem) threads_hooks.2.1 event deeper good
  have reached : x.dispatch services event (t.branch :: deeper) w =
      x.afterThread services b rest join before after { t with execution := t' } v := by
    simp only [dispatch_thread running group.now group.join? found, delivered, Outcome.bind]
  refine ⟨?_, ?_, ?_⟩
  · intro unfinished
    rw [delivered] at unfinished ⊢
    rw [reached, afterThread_runs unfinished]
  · intro finished more
    rw [delivered] at finished
    rw [reached, afterThread_stays finished is_open more]
  · intro finished enough
    rw [delivered] at finished
    obtain ⟨u, ended, good_u⟩ := afterThread_ends (e := x) reliable rest finished is_open
      enough succeed ((hooksSucceed_append _ _).mpr ⟨threads_hooks.1, threads_hooks.2.2⟩) good_v
    obtain ⟨x', w', entered, -, -, behind, -⟩ :=
      enter_becomes reliable running (endedGroup b join) rest_hooks good_u
    refine ⟨endedGroup b join, u, ?_, reached.trans ended, ?_⟩
    · simp only [endedGroup, Block.ended, Activity.ended, enough]
    · rw [reached, ended, entered]
      exact behind

/-- What an event makes of an execution in the tree is found in its place, unless it has run out. -/
theorem thread?_dispatch (reliable : services.Reliable Good) (settled : e.Settled)
    (quiet : e.HooksSucceed) {path : List Nat} (found : e.thread? path = some x) (event : Event)
    (deeper : List Nat) {w : World σ} (good : Good w.host)
    (unfinished : (x.dispatch services event deeper w).part.finished = false) :
    (e.dispatch services event (path ++ deeper) w).part.thread? path =
      some (x.dispatch services event deeper w).part := by
  induction path generalizing e with
  | nil =>
    cases found
    rfl
  | cons branch path ih =>
    obtain ⟨t, mem, -, rfl, inside⟩ := thread?_found found
    obtain ⟨b, rest, join, group⟩ := settled.atGroup_of_mem mem
    obtain ⟨before, after, threads⟩ := List.append_of_mem mem
    have t_settled := ((settled_iff e).mp settled).2.2 t mem
    have t_quiet := (hooksSucceed_forall _).mp ((hooksSucceed_iff e).mp quiet).2 t mem
    have next := ih t_settled t_quiet inside
    have runs : (t.execution.dispatch services event (path ++ deeper) w).part.finished = false := by
      obtain ⟨t', v, delivered, -, moved⟩ :=
        dispatch_becomes reliable t_settled t_quiet event (path ++ deeper) good
      rw [delivered] at next ⊢
      rcases moved.rests with spent | settled'
      · obtain ⟨-, same⟩ := spent.thread? next
        rw [same] at unfinished
        exact unfinished
      · exact settled'.unfinished
    have takes :=
      settled.groupTakes reliable quiet group threads event (path ++ deeper) good
    have is_open := settled.at_group group
    rw [threads] at is_open
    rw [List.cons_append, takes.runs runs, is_open.thread?_replaced]
    exact next

/-- A group passes over an event unless it goes to one of its threads. -/
theorem Settled.dispatch_group (settled : e.Settled) (group : e.AtGroup b rest join) (event : Event)
    (target : List Nat) (w : World σ) :
    (∃ notice, e.dispatch services event target w = ⟨.ok (), e, w.passOver notice⟩) ∨
    ∃ before t after deeper, target = t.branch :: deeper ∧ e.threads = before ++ t :: after := by
  have running := settled.isRunning
  cases target with
  | nil => exact Or.inl ⟨_, group.dispatch_here running event w⟩
  | cons branch deeper =>
    cases found : findThread branch e.threads with
    | none =>
      obtain ⟨notice, -, passed⟩ :=
        dispatch_nowhere services running group.now (Or.inr found) event deeper w
      exact Or.inl ⟨notice, passed⟩
    | some parts =>
      obtain ⟨before, t, after⟩ := parts
      obtain ⟨threads, rfl⟩ := findThread_some found
      exact Or.inr ⟨before, t, after, deeper, rfl, threads⟩

theorem keepsGroup_here (reliable : services.Reliable Good) (settled : x.Settled)
    (quiet : x.HooksSucceed) (group : x.AtGroup b rest join) (event : Event) (target : List Nat)
    {w : World σ} (good : Good w.host) :
    KeepsGroup join x (x.dispatch services event target w).part ∨
      x.EndsGroup services event target w := by
  rcases settled.dispatch_group group event target w
    with ⟨notice, passed⟩ | ⟨before, t, after, deeper, rfl, threads⟩
  · rw [passed]
    exact Or.inl group.keeps_self
  · have takes := settled.groupTakes reliable quiet group threads event deeper good
    cases finished : (t.execution.dispatch services event deeper w).part.finished with
    | false =>
      rw [takes.runs finished]
      exact Or.inl ⟨rfl, b, rest, join, ⟨group.now, group.activity⟩, rfl, rfl, Nat.le_refl _⟩
    | true =>
      by_cases enough : join.completed + 1 = join.target
      · exact Or.inr
          ⟨b, rest, join, before, t, after, deeper, group, rfl, threads, finished, enough⟩
      · rw [takes.counts finished enough]
        exact Or.inl ⟨rfl, _, rest, _, ⟨rfl, rfl⟩, rfl, rfl, Nat.le_succ _⟩

/-- A thread is found where it was after an event for another thread, unless the group ends. -/
theorem find_dispatch_other (reliable : services.Reliable Good) (settled : e.Settled)
    (quiet : e.HooksSucceed) (group : e.AtGroup b rest join)
    (threads : e.threads = before ++ t :: after) {branch : Nat} (other : t.branch ≠ branch)
    (event : Event) (deeper : List Nat) {w : World σ} (good : Good w.host) :
    (e.dispatch services event (t.branch :: deeper) w).part.threads.find? (·.branch = branch) =
        e.threads.find? (·.branch = branch) ∨
      e.EndsGroup services event (t.branch :: deeper) w := by
  have takes := settled.groupTakes reliable quiet group threads event deeper good
  cases finished : (t.execution.dispatch services event deeper w).part.finished with
  | false =>
    rw [takes.runs finished, threads, find_other other]
    exact Or.inl (find_other (t := { t with execution := _ }) other)
  | true =>
    by_cases enough : join.completed + 1 = join.target
    · exact Or.inr ⟨b, rest, join, before, t, after, deeper, group, rfl, threads, finished, enough⟩
    · rw [takes.counts finished enough, threads, find_other other]
      exact Or.inl rfl

/-- After an event a group that was current still is, unless it or a group around it has ended. -/
theorem keepsGroup_dispatch (reliable : services.Reliable Good) (settled : e.Settled)
    (quiet : e.HooksSucceed) {path : List Nat} (found : e.thread? path = some x)
    (group : x.AtGroup b rest join) (event : Event) (target : List Nat) {w : World σ}
    (good : Good w.host) :
    (∃ x', (e.dispatch services event target w).part.thread? path = some x' ∧
      KeepsGroup join x x') ∨
    ∃ outer inner deeper y, path = outer ++ inner ∧ target = outer ++ deeper ∧
      e.thread? outer = some y ∧ y.EndsGroup services event deeper w := by
  induction path generalizing e target with
  | nil =>
    cases found
    rcases keepsGroup_here reliable settled quiet group event target good with keeps | ends
    · exact Or.inl ⟨_, rfl, keeps⟩
    · exact Or.inr ⟨[], [], target, x, rfl, rfl, rfl, ends⟩
  | cons branch path ih =>
    obtain ⟨t, mem, first, rfl, inside⟩ := thread?_found found
    obtain ⟨c, cs, around, at_e⟩ := settled.atGroup_of_mem mem
    have still : ∀ e' : Execution,
        e'.threads.find? (·.branch = t.branch) = e.threads.find? (·.branch = t.branch) →
        ∃ x', e'.thread? (t.branch :: path) = some x' ∧ KeepsGroup join x x' := by
      intro e' same
      refine ⟨x, ?_, group.keeps_self⟩
      rw [thread?_cons, same, ← thread?_cons]
      exact found
    rcases settled.dispatch_group at_e event target w
      with ⟨notice, passed⟩ | ⟨before, s, after, deeper, rfl, threads⟩
    · rw [passed]
      exact Or.inl (still e rfl)
    · by_cases other : s.branch = t.branch
      · have is_open := settled.at_group at_e
        rw [threads] at is_open first
        have same : s = t := by
          have here := is_open.find_replaced s rfl
          rw [other, first] at here
          exact (Option.some.inj here).symm
        subst same
        have s_settled := ((settled_iff e).mp settled).2.2 s mem
        have s_quiet := (hooksSucceed_forall _).mp ((hooksSucceed_iff e).mp quiet).2 s mem
        rcases ih s_settled s_quiet inside deeper
          with ⟨x', found', keeps⟩ | ⟨outer, inner, last, y, rfl, rfl, at_y, ends⟩
        · have unfinished :
              (s.execution.dispatch services event deeper w).part.finished = false := by
            obtain ⟨s', v, delivered, -, moved⟩ :=
              dispatch_becomes reliable s_settled s_quiet event deeper good
            rw [delivered] at found' ⊢
            rcases moved.rests with spent | settled'
            · obtain ⟨-, rfl⟩ := spent.thread? found'
              obtain ⟨-, b', rest', join', group', -⟩ := keeps
              have now := group'.now
              rw [spent.ahead] at now
              cases now
            · exact settled'.unfinished
          have takes := settled.groupTakes reliable quiet at_e threads event deeper good
          refine Or.inl ⟨x', ?_, keeps⟩
          rw [takes.runs unfinished, is_open.thread?_replaced]
          exact found'
        · refine Or.inr ⟨s.branch :: outer, inner, last, y, rfl, rfl, ?_, ends⟩
          rw [thread?_cons, threads, first]
          exact at_y
      · rcases find_dispatch_other reliable settled quiet at_e threads other event deeper good
          with same | ends
        · exact Or.inl (still _ same)
        · exact Or.inr ⟨[], t.branch :: path, s.branch :: deeper, e, rfl, rfl, rfl, ends⟩

end Execution

/-- The branches after the one that brings a group to its target make no difference. -/
theorem startThreads_later (reliable : services.Reliable Good) {k : Nat}
    {branches others : List (List Template)} {address : List Nat} {first : Nat}
    {started : List Thread} {join : Join} {w : World σ}
    (starting : join.Starting started first branches.length) (hooks : hooksSucceed started)
    (enough : join.target ≤ join.completed + instantBranches (branches.take k))
    (same_length : others.length = branches.length) (same : others.take k = branches.take k)
    (good : Good w.host) :
    startThreads services (threadsFrom address first others) started join w =
      startThreads services (threadsFrom address first branches) started join w := by
  induction k generalizing branches others first started join w with
  | zero =>
    have short := starting.short
    simp only [List.take_zero, instantBranches] at enough
    omega
  | succ k ih =>
    cases branches with
    | nil =>
      rw [List.length_eq_zero_iff.mp same_length]
    | cons templates rest =>
      obtain ⟨templates', rest', rfl⟩ := List.exists_cons_of_length_eq_add_one same_length
      simp only [List.take_succ_cons, List.cons.injEq] at same
      obtain ⟨rfl, same⟩ := same
      have rest_length : rest'.length = rest.length := Nat.succ.inj same_length
      obtain ⟨e', v, entered, good_v, finished, quiet, -⟩ :=
        branch_starts reliable address templates' first w good
      cases instant : allInstant templates' with
      | false =>
        rw [instant] at finished
        have fewer : join.target ≤ join.completed + instantBranches (rest.take k) := by
          simpa [instantBranches, instant] using enough
        have next := ih (starting.keep e')
          ((hooksSucceed_append _ _).mpr ⟨hooks, quiet, trivial⟩) fewer rest_length same good_v
        have unfinished : ¬ e'.finished = true := by
          rw [finished]
          exact Bool.false_ne_true
        rw [startThreads_cons entered, startThreads_cons entered, if_neg unfinished,
          if_neg unfinished, next]
      | true =>
        rw [instant] at finished
        by_cases last : join.completed + 1 = join.target
        · obtain ⟨w', -, ends⟩ :=
            startThreads_ends reliable starting hooks entered finished last good_v
          rw [ends rest rfl, ends rest' rest_length]
        · have fewer : join.target ≤ join.completed + 1 + instantBranches (rest.take k) := by
            simp only [List.take_succ_cons, instantBranches, instant, if_true] at enough
            omega
          have next := ih (starting.count last) hooks fewer rest_length same good_v
          rw [startThreads_counts starting rfl entered finished last,
            startThreads_counts starting rest_length entered finished last, next]

namespace Execution

variable {e x : Execution} {b : Block} {rest : List Block} {join : Join}

/-- A group that is entered counts the branches that run out at their start. It ends with the one
that brings it to its target, whatever the branches after that one are; otherwise it waits for its
threads. -/
structure EntersGroup (services : Services σ) (Good : σ → Prop) (w : World σ) (e : Execution)
    (b : Block) (rest : List Block) (join : Join) : Prop where
  ends : join.target ≤ instantBranches join.branches → ∃ left w',
    left.activity = .parallel { join with completed := join.target, done := true } ∧
    e.enter services w = Execution.enter services ⟨e.advance left rest, []⟩ w' ∧
    left :: e.behind <:+ (e.enter services w).part.behind
  waits : instantBranches join.branches < join.target → ∃ b' threads w',
    b'.activity = .parallel
      { join with completed := instantBranches join.branches, done := false } ∧
    e.enter services w = ⟨.ok (), ⟨{ e.toSequence with ahead := b' :: rest }, threads⟩, w'⟩
  later : ∀ k others, others.length = join.branches.length →
    others.take k = join.branches.take k →
    join.target ≤ instantBranches (join.branches.take k) → ∀ v : World σ, Good v.host →
    startThreads services (threadsFrom e.address 0 others) [] join.opened v =
      startThreads services (join.threads e.address) [] join.opened v

theorem AtGroup.enters (reliable : services.Reliable Good) (group : e.AtGroup b rest join)
    (running : e.isRunning = true) (hooks : ∀ c ∈ e.ahead, c.HooksSucceed) {w : World σ}
    (good : Good w.host) : EntersGroup services Good w e b rest join where
  ends := by
    rw [group.now] at hooks
    intro reached
    obtain ⟨left, w', entered, good', -, activity⟩ :=
      enter_group_ends reliable group.now group.activity (hooks b List.mem_cons_self)
        (fun templates _ => branch_starts reliable e.address templates) reached good
    obtain ⟨e', v, landed, -, -, behind, -⟩ := enter_becomes reliable running left
      (fun c h => hooks c (List.mem_cons_of_mem b h)) good'
    refine ⟨left, w', activity, entered, ?_⟩
    rw [entered, landed]
    exact behind
  waits := by
    rw [group.now] at hooks
    intro few
    obtain ⟨handle, counted, threads, w', entered, -, rfl, -⟩ :=
      enter_group_waits reliable group.now group.activity (hooks b List.mem_cons_self)
        (fun templates _ => branch_starts reliable e.address templates) few good
    exact ⟨_, threads, w', rfl, entered⟩
  later := by
    intro k others same_length same enough v good_v
    by_cases none : join.branches = []
    · rw [none, List.length_nil] at same_length
      rw [Join.threads, none, List.length_eq_zero_iff.mp same_length]
    · refine startThreads_later reliable (Join.starting_opened none) trivial ?_ same_length same
        good_v
      rw [Join.opened, Nat.zero_add]
      exact enough

end Execution

namespace Run

/-- How the groups of a run that is in progress behave. -/
structure JoinsGroups (services : Services σ) (r : Run σ) : Prop where
  /-- Between two calls a group is short of its target, and all its threads run. -/
  waits : ∀ path x b rest join, r.root.thread? path = some x → x.AtGroup b rest join →
    join.Open x.threads ∧ ∀ t ∈ x.threads, t.execution.isRunning = true
  takes : ∀ path x b rest join before t after event deeper, r.root.thread? path = some x →
    x.AtGroup b rest join → x.threads = before ++ t :: after →
    Execution.GroupTakes services event deeper r.world x b rest join before t after
  /-- What an event makes of an execution is what the tree then holds in its place; blocks that it
  has left are not entered again. -/
  shows : ∀ path x event deeper, r.root.thread? path = some x →
    x.behind <:+ (x.dispatch services event deeper r.world).part.behind ∧
    ((x.dispatch services event deeper r.world).part.finished = false →
      (r.perform services (.dispatch (path ++ deeper) event)).root.thread? path =
        some (x.dispatch services event deeper r.world).part)
  /-- No other call ends a group, unless it ends one around it, which is at the path `outer`. -/
  stays : ∀ path x b rest join call, r.root.thread? path = some x → x.AtGroup b rest join →
    (∃ x', (r.perform services call).root.thread? path = some x' ∧
      Execution.KeepsGroup join x x') ∨
    ∃ outer inner event deeper y, path = outer ++ inner ∧
      call = .dispatch (outer ++ deeper) event ∧ r.root.thread? outer = some y ∧
      y.EndsGroup services event deeper r.world

theorem keepsGroup_ahead {e x : Execution} {b : Block} {rest : List Block} {join : Join}
    {path : List Nat} (found : e.thread? path = some x) (group : x.AtGroup b rest join)
    {ahead : List Block}
    (current : ∀ b rest, e.ahead = b :: rest → ∃ rest', ahead = b :: rest') :
    ∃ x', ({ e with ahead } : Execution).thread? path = some x' ∧
      Execution.KeepsGroup join x x' := by
  cases path with
  | nil =>
    cases found
    obtain ⟨rest', now⟩ := current b rest group.now
    exact ⟨_, rfl, rfl, b, rest', join, ⟨now, group.activity⟩, rfl, rfl, Nat.le_refl _⟩
  | cons branch path =>
    refine ⟨x, ?_, group.keeps_self⟩
    rw [Execution.thread?_cons] at found ⊢
    exact found

theorem Sound.stays (reliable : services.Reliable Good) {r : Run σ} (sound : r.Sound Good)
    (settled : r.root.Settled) {path : List Nat} {x : Execution} {b : Block} {rest : List Block}
    {join : Join} (found : r.root.thread? path = some x) (group : x.AtGroup b rest join)
    (call : Call) :
    (∃ x', (r.perform services call).root.thread? path = some x' ∧
      Execution.KeepsGroup join x x') ∨
    ∃ outer inner event deeper y, path = outer ++ inner ∧
      call = .dispatch (outer ++ deeper) event ∧ r.root.thread? outer = some y ∧
      y.EndsGroup services event deeper r.world := by
  cases call with
  | start =>
    have started : r.root.started = true := by
      have running := settled.isRunning
      simp only [Sequence.isRunning, Bool.and_eq_true] at running
      exact running.1.1
    refine Or.inl ⟨x, ?_, group.keeps_self⟩
    simp only [perform, start, started, if_true]
    exact found
  | dispatch target event =>
    rcases Execution.keepsGroup_dispatch reliable settled sound.hooks found group event target
      sound.good with keeps | ⟨outer, inner, deeper, y, rfl, rfl, at_y, ends⟩
    · exact Or.inl keeps
    · exact Or.inr ⟨outer, inner, event, deeper, y, rfl, rfl, at_y, ends⟩
  | push c =>
    exact Or.inl
      (keepsGroup_ahead found group fun b rest now => ⟨_, Sequence.ahead_push now c.block⟩)
  | splice blocks =>
    refine Or.inl ?_
    simp only [perform, splice]
    rw [Sequence.splice_eq]
    exact keepsGroup_ahead found group fun b rest now => ⟨_, Sequence.ahead_splice now _⟩
  | requestPause => exact Or.inl ⟨x, found, group.keeps_self⟩
  | releasePause token => exact Or.inl ⟨x, found, group.keeps_self⟩

theorem Sound.joinsGroups (reliable : services.Reliable Good) {r : Run σ} (sound : r.Sound Good)
    (settled : r.root.Settled) : r.JoinsGroups services where
  waits path x b rest join found group := by
    have settled_x := settled.thread? found
    refine ⟨settled_x.at_group group, fun t mem => ?_⟩
    exact (((Execution.settled_iff x).mp settled_x).2.2 t mem).isRunning
  takes path x b rest join before t after event deeper found group threads :=
    (settled.thread? found).groupTakes reliable (sound.hooks.thread? found) group threads event
      deeper sound.good
  shows path x event deeper found := by
    obtain ⟨x', w', delivered, -, moved⟩ := Execution.dispatch_becomes reliable
      (settled.thread? found) (sound.hooks.thread? found) event deeper sound.good
    refine ⟨?_, fun unfinished => ?_⟩
    · rw [delivered]
      exact moved.behind
    · exact Execution.thread?_dispatch reliable settled sound.hooks found event deeper sound.good
        unfinished
  stays path x b rest join call found group := sound.stays reliable settled found group call

/-- In every state that calls can lead to, groups are left in the call in which the thread finishes
that brings them to their target, and otherwise only in one that ends a group around them. -/
theorem groups_join (reliable : services.Reliable Good) {blocks : List HostBlock} {r : Run σ}
    (fresh : r.Fresh blocks) (good : Good r.world.host) (succeed : ∀ b ∈ blocks, b.Succeeds)
    (calls : List Call) (all : ∀ call ∈ calls, call.Succeeds)
    (running : (r.after services calls).root.isRunning = true) :
    (r.after services calls).JoinsGroups services ∧
    (∀ address templates (w : World σ), Good w.host →
      (Execution.enter services (startedThread address templates) w).part.finished =
        allInstant templates) ∧
    ∀ (e : Execution) b rest join (w : World σ), e.isRunning = true →
      (∀ c ∈ e.ahead, c.HooksSucceed) → Good w.host → e.AtGroup b rest join →
      Execution.EntersGroup services Good w e b rest join := by
  have sound := fresh.sound_after reliable succeed good calls all
  refine ⟨sound.joinsGroups reliable (sound.settled running), ?_, ?_⟩
  · intro address templates w good_w
    exact finished_startedThread reliable address templates good_w
  · intro e b rest join w running hooks good_w group
    exact group.enters reliable running hooks good_w

/-- A group that needs both of its threads, in a thread of one that needs one of two. -/
def nestedGroups : Run InMemory :=
  .ofWorkflow ⟨"supper", none, none, [.parallel "either" 1
    [[.task "order"],
      [(Template.parallel "both" 2 [[.task "rice"], [.task "beans"]]).withReminder ⟨5, .minutes⟩]],
    .task "eat"]⟩ .empty

theorem groups_join_nestedGroups :
    (nestedGroups.after InMemory.services [.start]).JoinsGroups InMemory.services ∧
    (∀ address templates (w : World InMemory), w.host.Willing →
      (Execution.enter InMemory.services (startedThread address templates) w).part.finished =
        allInstant templates) ∧
    ∀ (e : Execution) b rest join (w : World InMemory), e.isRunning = true →
      (∀ c ∈ e.ahead, c.HooksSucceed) → w.host.Willing → e.AtGroup b rest join →
      Execution.EntersGroup InMemory.services InMemory.Willing w e b rest join := by
  refine groups_join InMemory.reliable (fresh_ofWorkflow _ _) InMemory.willing_empty ?_ _ ?_ ?_
  · intro b mem
    obtain ⟨t, -, rfl⟩ := List.mem_map.mp mem
    exact HostBlock.succeeds_plain t
  · intro call mem
    rw [List.mem_singleton.mp mem]
    trivial
  · decide +kernel

/-- The group of an execution, with what it has counted and what it needs. -/
def groupAt (r : Run σ) (path : List Nat) : Option (Nat × Nat) :=
  ((r.root.thread? path).bind fun x => x.current?.bind Block.join?).map fun join =>
    (join.completed, join.target)

/-- The blocks that have left, the latest first, each with the address of its sequence. -/
def departures (r : Run σ) : List (List Nat × Nat) :=
  r.world.journal.filterMap fun
    | .left address index _ => some (address, index)
    | _ => none

/-- The sequences that have run out, the latest first. -/
def endings (r : Run σ) : List (List Nat) :=
  r.world.journal.filterMap fun
    | .finished address => some address
    | _ => none

/-- The inner group leaves, at index 0 of the thread `[1]`, in a call in which no thread of it runs
out: the outer one has ended. -/
theorem nestedGroups_cancelled :
    (nestedGroups.after InMemory.services [.start]).groupAt [1] = some (0, 2) ∧
    (nestedGroups.after InMemory.services [.start]).departures = [] ∧
    (nestedGroups.after InMemory.services [.start, .dispatch [0] .done]).departures =
      [([], 0), ([1], 0), ([1, 1], 0), ([1, 0], 0), ([0], 0)] ∧
    (nestedGroups.after InMemory.services [.start, .dispatch [0] .done]).endings = [[0]] := by
  decide +kernel

end Run

end Stepwise
