import Stepwise.Proofs.Settling

/-!
# Entering lands

With a reliable host and callbacks that succeed, entering a running sequence ends: it has run out if
all blocks ahead wait for nothing, and is settled if one does. The induction is on the weight of the
blocks ahead; the threads that a group starts weigh less than the group.
-/

namespace Stepwise

variable {σ : Type} {Good : σ → Prop} {services : Services σ}

/-- `e'` is where `e` comes to rest when it is entered. -/
structure Execution.LandsAt (e e' : Execution) : Prop where
  behind : e.behind <:+ e'.behind
  address : e'.address = e.address
  started : e'.started = e.started
  hooks : e'.HooksSucceed
  toil : e'.toil ≤ blocksEffort e.ahead
  spent : e.ahead.all Block.isInstant = true → e'.Over
  settled : e.ahead.all Block.isInstant = false → e'.Settled

def Execution.Lands (services : Services σ) (Good : σ → Prop) (e : Execution) : Prop :=
  ∀ w : World σ, Good w.host →
    ∃ e' w', e.enter services w = ⟨.ok (), e', w'⟩ ∧ Good w'.host ∧ e.LandsAt e'

@[simp]
theorem length_threadsFrom (address : List Nat) (first : Nat) (branches : List (List Template)) :
    (threadsFrom address first branches).length = branches.length := by
  induction branches generalizing first with
  | nil => rfl
  | cons templates rest ih => simp [threadsFrom, ih]

theorem hooksSucceed_append (first second : List Thread) :
    hooksSucceed (first ++ second) ↔ hooksSucceed first ∧ hooksSucceed second := by
  simp only [hooksSucceed_forall, List.mem_append, or_imp, forall_and]

theorem settledAll_append (first second : List Thread) :
    settledAll (first ++ second) ↔ settledAll first ∧ settledAll second := by
  simp only [settledAll_forall, List.mem_append, or_imp, forall_and]

/-- A group while its threads are started: those of the branches before `first` have been, and
`left` are still to be. -/
structure Join.Starting (j : Join) (started : List Thread) (first left : Nat) : Prop where
  increasing : started.Pairwise fun s t => s.branch < t.branch
  bounded : ∀ t ∈ started, t.branch < first
  position : first + left = j.branches.length
  total : j.completed + (started.length + left) = j.branches.length
  short : j.completed < j.target
  undone : j.done = false

theorem Join.starting_opened {join : Join} (some_branch : join.branches ≠ []) :
    join.opened.Starting [] 0 join.branches.length where
  increasing := List.Pairwise.nil
  bounded := List.forall_mem_nil _
  position := Nat.zero_add _
  total := by simp [opened]
  short := joinTarget_pos (List.length_pos_iff.mpr some_branch)
  undone := rfl

namespace Join.Starting

variable {j : Join} {started : List Thread} {first left : Nat}

theorem isOpen (h : j.Starting started first 0) : j.Open started where
  increasing := h.increasing
  bounded t ht := by
    have := h.bounded t ht
    have := h.position
    omega
  total := h.total
  short := h.short
  undone := h.undone

/-- The next thread waits for an event. -/
theorem keep (h : j.Starting started first (left + 1)) (e : Execution) :
    j.Starting (started ++ [⟨first, e⟩]) (first + 1) left where
  increasing := by
    rw [List.pairwise_append]
    refine ⟨h.increasing, List.pairwise_singleton _ _, ?_⟩
    intro s hs t ht
    rw [List.mem_singleton.mp ht]
    exact h.bounded s hs
  bounded t ht := by
    rcases List.mem_append.mp ht with ht | ht
    · have := h.bounded t ht
      omega
    · rw [List.mem_singleton.mp ht]
      exact Nat.lt_succ_self first
  position := by
    have := h.position
    omega
  total := by
    have := h.total
    rw [List.length_append, List.length_singleton]
    omega
  short := h.short
  undone := h.undone

/-- The next thread has run out, without ending the group. -/
theorem count (h : j.Starting started first (left + 1)) (more : j.completed + 1 ≠ j.target) :
    ({ j with completed := j.completed + 1 } : Join).Starting started (first + 1) left where
  increasing := h.increasing
  bounded t ht := Nat.lt_succ_of_lt (h.bounded t ht)
  position := by
    have : first + (left + 1) = j.branches.length := h.position
    show first + 1 + left = j.branches.length
    omega
  total := by
    have : j.completed + (started.length + (left + 1)) = j.branches.length := h.total
    show j.completed + 1 + (started.length + left) = j.branches.length
    omega
  short := by
    have : j.completed < j.target := h.short
    show j.completed + 1 < j.target
    omega
  undone := h.undone

end Join.Starting

/-- Threads that were not started have nothing to cancel. -/
theorem cancelThreads_unstarted (started : List Thread) (address : List Nat) (first : Nat)
    (branches : List (List Template)) (w : World σ) :
    cancelThreads services (started ++ threadsFrom address first branches) w =
      cancelThreads services started w := by
  induction started generalizing w with
  | nil =>
    induction branches generalizing first with
    | nil => rfl
    | cons templates rest ih =>
      have idle : (Execution.fresh none none (address ++ [first])
          (templates.map Block.ofTemplate)).cancel services w =
          ⟨.ok (), .fresh none none (address ++ [first]) (templates.map Block.ofTemplate), w⟩ := by
        rw [Execution.fresh, Execution.cancel]
        rfl
      have others := ih (first + 1)
      rw [List.nil_append] at others ⊢
      simp only [threadsFrom, cancelThreads, idle, Outcome.bind, others]
  | cons t started ih =>
    obtain ⟨branch, execution⟩ := t
    simp only [List.cons_append, cancelThreads, ih]

section Starting

variable {address : List Nat} {first n : Nat} {templates : List Template}
  {rest : List (List Template)} {started : List Thread} {join : Join} {w v : World σ}
  {e' : Execution}

theorem Join.Starting.ends_iff (address : List Nat) (starting : join.Starting started first (n + 1))
    (same_length : rest.length = n) :
    (started ++ threadsFrom address (first + 1) rest = [] ∨ join.completed + 1 = join.choose) ↔
      join.completed + 1 = join.target := by
  have total := starting.total
  have others : (started ++ threadsFrom address (first + 1) rest).length = started.length + n := by
    simp [same_length]
  rw [← Join.ends_iff (started.length + n) (by omega) starting.short, ← others,
    List.length_eq_zero_iff]

theorem startThreads_cons
    (entered : Execution.enter services (startedThread (address ++ [first]) templates) w =
      ⟨.ok (), e', v⟩) :
    startThreads services (threadsFrom address first (templates :: rest)) started join w =
      if e'.finished then
        (join.complete services (started ++ threadsFrom address (first + 1) rest) v).bind
          (fun part => part) fun ended (join, others) w =>
            if ended then ⟨.ok true, (join, others), w⟩
            else startThreads services (threadsFrom address (first + 1) rest) started join w
      else startThreads services (threadsFrom address (first + 1) rest)
        (started ++ [⟨first, e'⟩]) join v := by
  rw [startThreads_next, entered]
  rfl

theorem startThreads_counts (starting : join.Starting started first (n + 1))
    (same_length : rest.length = n)
    (entered : Execution.enter services (startedThread (address ++ [first]) templates) w =
      ⟨.ok (), e', v⟩)
    (finished : e'.finished = true) (more : join.completed + 1 ≠ join.target) :
    startThreads services (threadsFrom address first (templates :: rest)) started join w =
      startThreads services (threadsFrom address (first + 1) rest) started
        { join with completed := join.completed + 1 } v := by
  have test := mt (starting.ends_iff address same_length).mp more
  have completed := Join.complete_stays services join
    (fun h => test (Or.inl h)) (fun h => test (Or.inr h)) v
  rw [startThreads_cons entered]
  simp only [finished, if_true, completed, Outcome.bind, Bool.false_eq_true, if_false]

/-- The next thread brings the group to its target, whatever the branches after it are. -/
theorem startThreads_joins {w' : World σ} (starting : join.Starting started first (n + 1))
    (entered : Execution.enter services (startedThread (address ++ [first]) templates) w =
      ⟨.ok (), e', v⟩)
    (finished : e'.finished = true) (enough : join.completed + 1 = join.target)
    (cancelled : cancelThreads services started v = ⟨.ok (), (), w'⟩)
    {rest : List (List Template)} (same_length : rest.length = n) :
    startThreads services (threadsFrom address first (templates :: rest)) started join w =
      ⟨.ok true, ({ join with completed := join.target, done := true }, []), w'⟩ := by
  have others : cancelThreads services (started ++ threadsFrom address (first + 1) rest) v =
      ⟨.ok (), (), w'⟩ := by
    rw [cancelThreads_unstarted, cancelled]
  have test := (starting.ends_iff address same_length).mpr enough
  have completed := Join.complete_ends test starting.undone others
  rw [startThreads_cons entered]
  simp only [finished, if_true, completed, Outcome.bind, enough]

theorem startThreads_ends (reliable : services.Reliable Good)
    (starting : join.Starting started first (n + 1)) (hooks : hooksSucceed started)
    (entered : Execution.enter services (startedThread (address ++ [first]) templates) w =
      ⟨.ok (), e', v⟩)
    (finished : e'.finished = true) (enough : join.completed + 1 = join.target)
    (good : Good v.host) :
    ∃ w', Good w'.host ∧ ∀ rest : List (List Template), rest.length = n →
      startThreads services (threadsFrom address first (templates :: rest)) started join w =
        ⟨.ok true, ({ join with completed := join.target, done := true }, []), w'⟩ := by
  obtain ⟨w', cancelled, good'⟩ := cancelThreads_ok reliable hooks good
  exact ⟨w', good', fun rest same_length =>
    startThreads_joins starting entered finished enough cancelled same_length⟩

end Starting

/-- From every good host the thread of a branch starts with an answer. It runs out just if nothing
in the branch waits, and `P` holds of it with the number of the branch. -/
def Starts (services : Services σ) (Good : σ → Prop)
    (P : Nat → List Template → Execution → Prop) (address : List Nat)
    (templates : List Template) : Prop :=
  ∀ branch (w : World σ), Good w.host → ∃ e' w',
    Execution.enter services (startedThread (address ++ [branch]) templates) w =
      ⟨.ok (), e', w'⟩ ∧
    Good w'.host ∧ e'.finished = allInstant templates ∧ e'.HooksSucceed ∧ P branch templates e'

/-- The threads that are left of the branches from number `first` on once all have been started: one
for each branch in which something waits, with `P` for what holds of it. -/
inductive StartedFrom (P : Nat → List Template → Execution → Prop) :
    Nat → List (List Template) → List Thread → Prop
  | nil {first : Nat} : StartedFrom P first [] []
  | ended {first : Nat} {templates : List Template} {rest : List (List Template)}
      {new : List Thread} (instant : allInstant templates = true)
      (others : StartedFrom P (first + 1) rest new) : StartedFrom P first (templates :: rest) new
  | waits {first : Nat} {templates : List Template} {rest : List (List Template)}
      {new : List Thread} {e : Execution} (waiting : allInstant templates = false)
      (holds : P first templates e) (others : StartedFrom P (first + 1) rest new) :
      StartedFrom P first (templates :: rest) (⟨first, e⟩ :: new)

/-- Starting the threads of a group counts those that run out. The group ends with the one that
brings it to its target; without such a one it is open for the threads that are left. -/
theorem startThreads_lands {P : Nat → List Template → Execution → Prop} {address : List Nat}
    (reliable : services.Reliable Good) {branches : List (List Template)}
    (starts : ∀ templates ∈ branches, Starts services Good P address templates)
    {first : Nat} {started : List Thread} {join : Join} {w : World σ}
    (starting : join.Starting started first branches.length) (hooks : hooksSucceed started)
    (good : Good w.host) :
    ∃ counted threads w',
      startThreads services (threadsFrom address first branches) started join w =
        ⟨.ok (decide (join.target ≤ join.completed + instantBranches branches)),
          (counted, threads), w'⟩ ∧ Good w'.host ∧
      (join.target ≤ join.completed + instantBranches branches →
        counted = { join with completed := join.target, done := true } ∧ threads = []) ∧
      (join.completed + instantBranches branches < join.target →
        counted = { join with completed := join.completed + instantBranches branches } ∧
          counted.Open threads ∧
          ∃ new, threads = started ++ new ∧ StartedFrom P first branches new) := by
  induction branches generalizing first started join w with
  | nil =>
    have short : ¬ join.target ≤ join.completed + 0 := by
      have := starting.short
      omega
    refine ⟨join, started, w, ?_, good, fun h => absurd h short, fun _ => ?_⟩
    · simp only [threadsFrom, startThreads, instantBranches, short, decide_false]
    · exact ⟨rfl, starting.isOpen, [], (List.append_nil _).symm, .nil⟩
  | cons templates rest ih =>
    have rest_starts := fun ts h => starts ts (List.mem_cons_of_mem templates h)
    obtain ⟨e', v, entered, good_v, finished, quiet, holds⟩ :=
      starts templates List.mem_cons_self first w good
    cases instant : allInstant templates with
    | false =>
      rw [instant] at finished
      obtain ⟨counted, threads, w', run, good', ended, stays⟩ := ih rest_starts
        (starting.keep e') ((hooksSucceed_append _ _).mpr ⟨hooks, quiet, trivial⟩) good_v
      have same : instantBranches (templates :: rest) = instantBranches rest := by
        simp [instantBranches, instant]
      rw [same]
      refine ⟨counted, threads, w', ?_, good', ended, fun few => ?_⟩
      · rw [startThreads_cons entered, finished]
        exact run
      · obtain ⟨counted_eq, is_open, new, rfl, others⟩ := stays few
        refine ⟨counted_eq, is_open, ⟨first, e'⟩ :: new, ?_, .waits instant holds others⟩
        rw [List.append_assoc, List.singleton_append]
    | true =>
      rw [instant] at finished
      have same : instantBranches (templates :: rest) = 1 + instantBranches rest := by
        simp [instantBranches, instant]
      rw [same]
      by_cases enough : join.completed + 1 = join.target
      · obtain ⟨w', good', ends⟩ :=
          startThreads_ends reliable starting hooks entered finished enough good_v
        have reached : join.target ≤ join.completed + (1 + instantBranches rest) := by omega
        refine ⟨_, [], w', ?_, good', fun _ => ⟨rfl, rfl⟩,
          fun h => absurd h (Nat.not_lt.mpr reached)⟩
        rw [ends rest rfl, decide_eq_true reached]
      · obtain ⟨counted, threads, w', run, good', ended, stays⟩ :=
          ih rest_starts (starting.count enough) hooks good_v
        have target : ({ join with completed := join.completed + 1 } : Join).target = join.target :=
          rfl
        have sum : join.completed + 1 + instantBranches rest =
            join.completed + (1 + instantBranches rest) := by omega
        simp only [target, sum] at run ended stays
        refine ⟨counted, threads, w', ?_, good', ended, fun few => ?_⟩
        · rw [startThreads_counts starting rfl entered finished enough]
          exact run
        · obtain ⟨counted_eq, is_open, new, same_threads, others⟩ := stays few
          exact ⟨counted_eq, is_open, new, same_threads, .ended instant others⟩

namespace Execution

variable {e : Execution} {b : Block} {rest : List Block}

/-- The blocks that take the place of a block that leaves at once stand for it. -/
structure Replaces (b : Block) (rest ahead : List Block) : Prop where
  hooks : ∀ c ∈ ahead, c.HooksSucceed
  effort : blocksEffort ahead ≤ blocksEffort (b :: rest)
  instant : ahead.all Block.isInstant = (b :: rest).all Block.isInstant

/-- Landing of a sequence that goes on in the same call. -/
theorem LandsAt.of_advance {left : Block} {ahead : List Block} {e' : Execution}
    (now : e.ahead = b :: rest) (replaces : Replaces b rest ahead)
    (lands : LandsAt ⟨e.advance left ahead, []⟩ e') : e.LandsAt e' where
  behind := (List.suffix_cons left e.behind).trans lands.behind
  address := lands.address
  started := lands.started
  hooks := lands.hooks
  toil := by
    rw [now]
    exact Nat.le_trans lands.toil replaces.effort
  spent h := by
    rw [now] at h
    exact lands.spent (replaces.instant.trans h)
  settled h := by
    rw [now] at h
    exact lands.settled (replaces.instant.trans h)

theorem Lands.of_advance (now : e.ahead = b :: rest)
    (goes_on : ∀ w : World σ, Good w.host → ∃ left ahead w',
      e.enter services w = Execution.enter services ⟨e.advance left ahead, []⟩ w' ∧
        Good w'.host ∧ Replaces b rest ahead ∧ Lands services Good ⟨e.advance left ahead, []⟩) :
    e.Lands services Good := by
  intro w good
  obtain ⟨left, ahead, v, entered, good_v, replaces, lands⟩ := goes_on w good
  obtain ⟨e', w', entered', good', at_e'⟩ := lands v good_v
  exact ⟨e', w', entered.trans entered', good', at_e'.of_advance now replaces⟩

theorem Replaces.of_instant (hooks : ∀ c ∈ rest, c.HooksSucceed) (instant : b.isInstant = true) :
    Replaces b rest rest where
  hooks := hooks
  effort := Nat.le_add_left _ _
  instant := by simp [instant]

/-- The passes that are left to a counted loop are its next pass and those that are left then. -/
theorem Replaces.pass {remaining : Int} {entered : Bool} {body : List Template} {next : Block}
    (activity : b.activity = .counted remaining entered body) (more : 0 < remaining)
    (next_activity : next.activity = .counted (remaining - 1) true body)
    (next_hooks : next.hooks = []) (hooks : ∀ c ∈ rest, c.HooksSucceed) :
    Replaces b rest (body.map Block.ofTemplate ++ next :: rest) where
  hooks := by
    intro c h
    rcases List.mem_append.mp h with h | h
    · exact Block.hooksSucceed_ofTemplates body c h
    · rcases List.mem_cons.mp h with rfl | h
      · intro hook mem
        rw [next_hooks] at mem
        cases mem
      · exact hooks c h
  effort := by
    obtain ⟨n, rfl⟩ : ∃ n : Nat, remaining = n + 1 := ⟨(remaining - 1).toNat, by omega⟩
    have count : ((n : Int) + 1).toNat = n + 1 := by omega
    have less : ((n : Int) + 1 - 1).toNat = n := by omega
    simp only [blocksEffort_append, blocksEffort_ofTemplates, blocksEffort, Block.effort, activity,
      next_activity, less, count, Nat.succ_mul]
    omega
  instant := by
    have positive : decide (remaining ≤ 0) = false := by simpa using more
    rw [List.all_append, all_isInstant_ofTemplates]
    simp only [List.all_cons, Block.isInstant, activity, next_activity, positive, Bool.false_or]
    cases allInstant body <;> simp

theorem Lands.of_waits (reliable : services.Reliable Good) (now : e.ahead = b :: rest)
    (waits : b.Waits) (running : e.isRunning = true) (hooks : ∀ c ∈ e.ahead, c.HooksSucceed) :
    e.Lands services Good := by
  intro w good
  obtain ⟨b', w', entered, good', plan, same_hooks⟩ := enter_waits reliable now waits good
  refine ⟨_, w', entered, good', ?_⟩
  exact
    { behind := List.suffix_refl _
      address := rfl
      started := rfl
      hooks := by
        refine ⟨fun c h => ?_, trivial⟩
        rw [now] at hooks
        rcases List.mem_cons.mp h with rfl | h
        · intro hook mem
          rw [same_hooks] at mem
          exact hooks b List.mem_cons_self hook mem
        · exact hooks c (List.mem_cons_of_mem b h)
      toil := by
        simp only [toil, waits.toil plan, now, blocksEffort, Nat.le_refl]
      spent := fun h => by simp [now, waits.not_instant] at h
      settled := fun _ => ⟨running, ⟨b', rest, rfl, waits.hosts plan⟩, trivial⟩ }

/-- A group ends in the call that enters it if branches enough wait for nothing. -/
theorem enter_group_ends {P : Nat → List Template → Execution → Prop}
    (reliable : services.Reliable Good) {join : Join} (now : e.ahead = b :: rest)
    (activity : b.activity = .parallel join) (succeed : b.HooksSucceed)
    (starts : ∀ templates ∈ join.branches, Starts services Good P e.address templates)
    (reached : join.target ≤ instantBranches join.branches) {w : World σ} (good : Good w.host) :
    ∃ left w', e.enter services w = Execution.enter services ⟨e.advance left rest, []⟩ w' ∧
      Good w'.host ∧ left.shape = b.shape ∧
      left.activity = .parallel { join with completed := join.target, done := true } := by
  by_cases none : join.branches = []
  · obtain ⟨left, w', entered, good', shape, ended⟩ :=
      enter_branchless reliable.calm now activity none succeed good
    refine ⟨left, w', entered, good', shape, ?_⟩
    rw [ended, Join.target_branchless none]
    rfl
  · obtain ⟨v, good_v, entered⟩ := enter_group reliable.calm now activity none succeed good
    obtain ⟨counted, threads, v', run, good_v', ended, -⟩ :=
      startThreads_lands reliable starts (Join.starting_opened none) trivial good_v
    have enough : join.opened.target ≤ join.opened.completed + instantBranches join.branches := by
      rw [Join.opened, Nat.zero_add]
      exact reached
    obtain ⟨rfl, rfl⟩ := ended enough
    rw [decide_eq_true enough] at run
    obtain ⟨handle, w', good', outcome⟩ := entered Good reliable.calm _ _ _ v' run good_v'
    refine ⟨_, w', outcome, good', ?_, rfl⟩
    simp only [Block.shape, Block.ended, activity]
    rfl

/-- A group that is not brought to its target at its start waits for the threads that are left. -/
theorem enter_group_waits {P : Nat → List Template → Execution → Prop}
    (reliable : services.Reliable Good) {join : Join} (now : e.ahead = b :: rest)
    (activity : b.activity = .parallel join) (succeed : b.HooksSucceed)
    (starts : ∀ templates ∈ join.branches, Starts services Good P e.address templates)
    (few : instantBranches join.branches < join.target) {w : World σ} (good : Good w.host) :
    ∃ handle counted threads w',
      e.enter services w = ⟨.ok (), ⟨{ e.toSequence with
        ahead := { b with handle, activity := .parallel counted } :: rest }, threads⟩, w'⟩ ∧
      Good w'.host ∧
      counted = { join with completed := instantBranches join.branches, done := false } ∧
      counted.Open threads ∧ StartedFrom P 0 join.branches threads := by
  have some_branch : join.branches ≠ [] := by
    intro none
    rw [Join.target_branchless none] at few
    exact Nat.not_lt_zero _ few
  obtain ⟨v, good_v, entered⟩ := enter_group reliable.calm now activity some_branch succeed good
  obtain ⟨counted, threads, v', run, good_v', -, stays⟩ :=
    startThreads_lands reliable starts (Join.starting_opened some_branch) trivial good_v
  have below : join.opened.completed + instantBranches join.branches < join.opened.target := by
    rw [Join.opened, Nat.zero_add]
    exact few
  obtain ⟨counted_eq, is_open, new, rfl, others⟩ := stays below
  rw [decide_eq_false (Nat.not_le.mpr below)] at run
  obtain ⟨handle, w', good', outcome⟩ := entered Good reliable.calm _ counted _ v' run good_v'
  rw [if_neg Bool.false_ne_true] at outcome
  refine ⟨handle, counted, _, w', outcome, good', ?_, is_open, others⟩
  rw [counted_eq, Join.opened, Nat.zero_add]

theorem LandsAt.finished {e' : Execution} (lands : e.LandsAt e') :
    e'.finished = e.ahead.all Block.isInstant := by
  cases instant : e.ahead.all Block.isInstant with
  | true => exact (lands.spent instant).finished
  | false => exact (lands.settled instant).unfinished

/-- Where the thread of a branch lands. -/
def ThreadLands (address : List Nat) (branch : Nat) (templates : List Template)
    (e : Execution) : Prop :=
  (startedThread (address ++ [branch]) templates).LandsAt e

theorem all_isInstant_startedThread (address : List Nat) (templates : List Template) :
    (startedThread address templates).ahead.all Block.isInstant = allInstant templates :=
  all_isInstant_ofTemplates templates

theorem starts_of_lands {address : List Nat} {templates : List Template}
    (lands : ∀ branch, (startedThread (address ++ [branch]) templates).Lands services Good) :
    Starts services Good (ThreadLands address) address templates := by
  intro branch w good
  obtain ⟨e', w', entered, good', at_e'⟩ := lands branch w good
  exact ⟨e', w', entered, good',
    at_e'.finished.trans (all_isInstant_startedThread _ templates), at_e'.hooks, at_e'⟩

/-- The threads that are left of the branches of a group all wait, with no more work than these. -/
theorem threadsLand {address : List Nat} {first : Nat} {branches : List (List Template)}
    {threads : List Thread} (left : StartedFrom (ThreadLands address) first branches threads) :
    settledAll threads ∧ hooksSucceed threads ∧ toilAll threads ≤ effortBranches branches := by
  induction left with
  | nil => exact ⟨trivial, trivial, Nat.le_refl _⟩
  | ended _ _ ih =>
    obtain ⟨settled, hooks, toil⟩ := ih
    refine ⟨settled, hooks, ?_⟩
    simp only [effortBranches]
    omega
  | waits waiting lands _ ih =>
    obtain ⟨settled, hooks, others⟩ := ih
    have stands := lands.settled ((all_isInstant_startedThread _ _).trans waiting)
    refine ⟨⟨stands, settled⟩, ⟨lands.hooks, hooks⟩, ?_⟩
    have toil := lands.toil
    simp only [startedThread, Execution.fresh, Sequence.fresh, blocksEffort_ofTemplates] at toil
    simp only [toilAll, effortBranches]
    omega

/-- A group lands where the start of its threads leads. -/
theorem Lands.of_group (reliable : services.Reliable Good) {join : Join}
    (now : e.ahead = b :: rest) (activity : b.activity = .parallel join)
    (running : e.isRunning = true) (hooks : ∀ c ∈ e.ahead, c.HooksSucceed)
    (threads_land : ∀ templates ∈ join.branches, ∀ address,
      (startedThread address templates).Lands services Good)
    (rest_lands : ∀ left, Lands services Good ⟨e.advance left rest, []⟩) :
    e.Lands services Good := by
  rw [now] at hooks
  have succeed := hooks b List.mem_cons_self
  have rest_hooks : ∀ c ∈ rest, c.HooksSucceed := fun c h => hooks c (List.mem_cons_of_mem b h)
  have starts : ∀ templates ∈ join.branches,
      Starts services Good (ThreadLands e.address) e.address templates :=
    fun templates mem => starts_of_lands fun branch => threads_land templates mem _
  by_cases reached : join.target ≤ instantBranches join.branches
  · refine .of_advance now fun w good => ?_
    obtain ⟨left, w', entered, good', -⟩ :=
      enter_group_ends reliable now activity succeed starts reached good
    refine ⟨left, rest, w', entered, good', .of_instant rest_hooks ?_, rest_lands left⟩
    simp [Block.isInstant, activity, reached]
  · intro w good
    obtain ⟨handle, counted, threads, w', entered, good', rfl, is_open, started⟩ :=
      enter_group_waits reliable now activity succeed starts (Nat.not_le.mp reached) good
    obtain ⟨settled, threads_hooks, bound⟩ := threadsLand started
    refine ⟨_, w', entered, good', ?_⟩
    exact
      { behind := List.suffix_refl _
        address := rfl
        started := rfl
        hooks := ⟨by simpa [Block.HooksSucceed] using hooks, threads_hooks⟩
        toil := by
          simp only [toil, Block.toil, now, blocksEffort, Block.effort, activity]
          omega
        spent := fun h => by simp [now, Block.isInstant, activity, reached] at h
        settled := fun _ => ⟨running, ⟨_, rest, rfl, is_open⟩, settled⟩ }

theorem enter_lands (reliable : services.Reliable Good) (running : e.isRunning = true)
    (hooks : ∀ c ∈ e.ahead, c.HooksSucceed) : e.Lands services Good := by
  induction weight : blocksWeight e.ahead using Nat.strongRecOn generalizing e with
  | ind n ih =>
  cases now : e.ahead with
  | nil =>
    intro w good
    have unfinished : e.finished = false := Sequence.unfinished_of_running running
    obtain ⟨w', entered, good'⟩ := enter_nil reliable.calm now unfinished good
    refine ⟨_, w', entered, good', ?_⟩
    exact
      { behind := List.suffix_refl _
        address := rfl
        started := rfl
        hooks := ⟨by simp [now], trivial⟩
        toil := by simp [toil, now]
        spent := fun _ => ⟨rfl, now, rfl⟩
        settled := fun h => by simp [now] at h }
  | cons b rest =>
    rw [now] at hooks
    have succeed := hooks b List.mem_cons_self
    have rest_hooks : ∀ c ∈ rest, c.HooksSucceed := fun c h => hooks c (List.mem_cons_of_mem b h)
    have lighter : ∀ left ahead, blocksWeight ahead < n → (∀ c ∈ ahead, c.HooksSucceed) →
        Lands services Good ⟨e.advance left ahead, []⟩ :=
      fun left ahead less quiet => ih _ less running quiet rfl
    have rest_lighter : blocksWeight rest < n := by
      have := b.weight_pos
      rw [now, blocksWeight_cons] at weight
      omega
    have rest_lands : ∀ left, Lands services Good ⟨e.advance left rest, []⟩ :=
      fun left => lighter left rest rest_lighter rest_hooks
    rw [← now] at hooks
    cases activity : b.activity with
    | task | condition | asked =>
      exact .of_waits reliable now (by simp [Block.Waits, activity]) running hooks
    | sleep s =>
      by_cases positive : 0 < s.value
      · exact .of_waits reliable now (by simpa [Block.Waits, activity] using positive) running hooks
      · refine .of_advance now fun w good => ?_
        obtain ⟨left, w', entered, good', -⟩ :=
          enter_elapsed reliable.calm now activity positive succeed good
        refine ⟨left, rest, w', entered, good', .of_instant rest_hooks ?_, rest_lands left⟩
        simp [Block.isInstant, activity, positive]
    | counted remaining entered body =>
      refine .of_advance now fun w good => ?_
      by_cases more : 0 < remaining
      · obtain ⟨left, next, w', entered, good', -, next_hooks, next_activity, -⟩ :=
          enter_pass reliable.calm now activity more succeed good
        have replaces := Replaces.pass activity more next_activity next_hooks rest_hooks
        refine ⟨left, _, w', entered, good', replaces, lighter left _ ?_ replaces.hooks⟩
        rw [← weight, now]
        exact weight_next_pass_lt activity more next_activity rest
      · obtain ⟨left, w', entered, good', -⟩ :=
          enter_exhausted reliable.calm now activity more succeed good
        refine ⟨left, rest, w', entered, good', .of_instant rest_hooks ?_, rest_lands left⟩
        simp [Block.isInstant, activity, Int.not_lt.mp more]
    | parallel join =>
      refine .of_group reliable now activity running hooks ?_ rest_lands
      intro templates mem address
      refine ih _ ?_ rfl (Block.hooksSucceed_ofTemplates templates) rfl
      rw [← weight, now]
      exact weight_startedThread_lt address activity mem rest

end Execution

theorem startedThread_lands (reliable : services.Reliable Good) (address : List Nat)
    (templates : List Template) : (startedThread address templates).Lands services Good :=
  Execution.enter_lands reliable rfl (Block.hooksSucceed_ofTemplates templates)

/-- The thread of a branch runs out at its start just if the branch waits for nothing. -/
theorem finished_startedThread (reliable : services.Reliable Good) (address : List Nat)
    (templates : List Template) {w : World σ} (good : Good w.host) :
    (Execution.enter services (startedThread address templates) w).part.finished =
      allInstant templates := by
  obtain ⟨e', w', entered, -, at_e'⟩ := startedThread_lands reliable address templates w good
  rw [entered]
  exact at_e'.finished.trans (Execution.all_isInstant_startedThread address templates)

theorem branch_starts (reliable : services.Reliable Good) (address : List Nat)
    (templates : List Template) :
    Starts services Good (Execution.ThreadLands address) address templates :=
  Execution.starts_of_lands fun _ => startedThread_lands reliable _ templates

end Stepwise
