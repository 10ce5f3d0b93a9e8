import Stepwise.Execution.Entering
import Stepwise.Proofs.Lengths
import Stepwise.Proofs.Reliability

/-!
# Entering with a reliable host

What it takes to enter a sequence depends on its first block only. A block that waits for an event
stays current. Any other one is left in the same call, and the sequence is entered again behind it:
that is the same call of `enter` with one block more behind. So a proof about entering walks along
the blocks, and the host only appears as some state in its good set.
-/

namespace Stepwise

variable {σ : Type} {Good : σ → Prop}

/-- The block waits for an event once it has been entered. -/
def Block.Waits (b : Block) : Prop :=
  match b.activity with
  | .task | .condition _ _ | .asked _ _ => True
  | .sleep sleep => 0 < sleep.value
  | .counted _ _ _ | .parallel _ => False

theorem Block.activity_of_sleep? {b : Block} {s : Sleep} (asleep : b.sleep? = some s) :
    b.activity = .sleep s := by
  unfold sleep? at asleep
  split at asleep
  · next activity =>
    cases asleep
    exact activity
  · cases asleep

/-- A group with its count reset, which it is when it is entered. -/
def Join.opened (j : Join) : Join := { j with completed := 0, done := false }

theorem weight_lt_weightBranches {templates : List Template} {branches : List (List Template)}
    (mem : templates ∈ branches) : weightAll templates < weightBranches branches := by
  induction branches with
  | nil => cases mem
  | cons branch rest ih =>
    rcases List.mem_cons.mp mem with rfl | mem
    · simp only [weightBranches]
      omega
    · have := ih mem
      simp only [weightBranches]
      omega

section Arriving

variable (services : Services σ) (address : List Nat) {b : Block} (w : World σ)

theorem Execution.enter_end {e : Execution} (ahead : e.ahead = []) :
    e.enter services w =
      (e.toSequence.finish services w).within fun line => ⟨line, []⟩ := by
  rw [Execution.enter]
  split
  · rfl
  · next head => simp [ahead] at head

/-- Entering a block once its reminder has been started. -/
theorem Execution.enter_block {e : Execution} {rest : List Block} (ahead : e.ahead = b :: rest)
    {w w' : World σ} {handle : Option Nat}
    (registered : b.register services w = (.ok handle, w')) :
    e.enter services w =
      (Block.arrive services e.address { b with handle } w').bind
        (fun (b, threads) => { e with ahead := b :: rest, threads })
        fun leaves (arrived, threads) w =>
          let w := e.noteEntered arrived w
          if leaves then
            let ahead := { b with handle }.pass ++ rest
            (arrived.leave services w).bind
              (fun left => ⟨{ e.toSequence with ahead := left :: ahead }, []⟩)
              fun _ left w => Execution.enter services ⟨e.advance left ahead, []⟩ (e.noteLeft left w)
          else ⟨.ok (), { e with ahead := arrived :: rest, threads }, w⟩ := by
  rw [Execution.enter]
  split
  · next empty => simp [ahead] at empty
  · next b' rest' head =>
    rw [ahead] at head
    cases head
    simp only [registered]

/-- A block whose reminder is refused is not entered. -/
theorem Execution.enter_refused {e : Execution} {rest : List Block} (ahead : e.ahead = b :: rest)
    {w w' : World σ} {error : ServiceError}
    (refused : b.register services w = (.error error, w')) :
    e.enter services w = ⟨.error error, e, w'⟩ := by
  rw [Execution.enter]
  split
  · next empty => simp [ahead] at empty
  · next b' rest' head =>
    rw [ahead] at head
    cases head
    simp only [refused]

/-- A thread of a branch right after its start. -/
def startedThread (address : List Nat) (templates : List Template) : Execution :=
  { Execution.fresh none none address (templates.map Block.ofTemplate) with started := true }

theorem weight_startedThread_lt {join : Join} (activity : b.activity = .parallel join)
    {templates : List Template} (mem : templates ∈ join.branches) (rest : List Block) :
    blocksWeight (startedThread address templates).ahead < blocksWeight (b :: rest) := by
  have less := weight_lt_weightBranches mem
  simp only [startedThread, Execution.fresh, Sequence.fresh, blocksWeight_ofTemplates,
    blocksWeight_cons, Block.weight, activity]
  omega

omit address w in
/-- The next pass of a counted loop and those that are left then weigh less than the loop. -/
theorem weight_next_pass_lt {next : Block} {remaining : Int} {entered : Bool}
    {body : List Template} (activity : b.activity = .counted remaining entered body)
    (more : 0 < remaining) (next_activity : next.activity = .counted (remaining - 1) true body)
    (rest : List Block) :
    blocksWeight (body.map Block.ofTemplate ++ next :: rest) < blocksWeight (b :: rest) := by
  obtain ⟨k, rfl⟩ : ∃ k : Nat, remaining = k + 1 := ⟨(remaining - 1).toNat, by omega⟩
  have passes : ((k : Int) + 1).toNat = k + 1 := by omega
  have fewer : ((k : Int) + 1 - 1).toNat = k := by omega
  simp only [blocksWeight_append, blocksWeight_ofTemplates, blocksWeight_cons, Block.weight,
    activity, next_activity, passes, fewer, Nat.succ_mul]
  omega

/-- Entering a sequence comes down to entering what its first block leaves ahead, and the threads
that the block starts if it is a group. -/
theorem Execution.enter_induction {motive : Execution → Prop}
    (nil : ∀ e, e.ahead = [] → motive e)
    (cons : ∀ e b rest, e.ahead = b :: rest →
      (∀ left handle, motive ⟨e.advance left (({ b with handle } : Block).pass ++ rest), []⟩) →
      (∀ join, b.activity = .parallel join → ∀ templates ∈ join.branches, ∀ address,
        motive (startedThread address templates)) → motive e)
    (e : Execution) : motive e := by
  induction weight : blocksWeight e.ahead using Nat.strongRecOn generalizing e with
  | ind n ih =>
  cases now : e.ahead with
  | nil => exact nil e now
  | cons b rest =>
    rw [now, blocksWeight_cons] at weight
    refine cons e b rest now (fun left handle => ih _ ?_ _ rfl) ?_
    · have less := Block.weight_pass_lt { b with handle }
      have same : ({ b with handle } : Block).weight = b.weight := rfl
      simp only [Sequence.advance, blocksWeight_append]
      omega
    · intro join activity templates mem address
      have less := weight_startedThread_lt address activity mem rest
      refine ih _ ?_ _ rfl
      rw [blocksWeight_cons] at less
      omega

/-- The next thread of a group is started. -/
theorem startThreads_next (first : Nat) (templates : List Template) (rest : List (List Template))
    (started : List Thread) (join : Join) :
    startThreads services (threadsFrom address first (templates :: rest)) started join w =
      (Execution.enter services (startedThread (address ++ [first]) templates) w).bind
        (fun e => (join, started ++ ⟨first, e⟩ :: threadsFrom address (first + 1) rest))
        fun _ e w =>
          if e.finished then
            (join.complete services (started ++ threadsFrom address (first + 1) rest) w).bind
              (fun part => part) fun ended (join, others) w =>
                if ended then ⟨.ok true, (join, others), w⟩
                else startThreads services (threadsFrom address (first + 1) rest) started join w
          else startThreads services (threadsFrom address (first + 1) rest)
            (started ++ [⟨first, e⟩]) join w := by
  simp only [threadsFrom]
  rw [startThreads]
  rfl

theorem Block.arrive_counted {remaining : Int} {entered : Bool} {body : List Template}
    (activity : b.activity = .counted remaining entered body) :
    Block.arrive services address b w =
      if 0 < remaining then
        ⟨.ok true, ({ b with activity := .counted remaining true body, handle := none }, []),
          w.noteBuilt body⟩
      else ⟨.ok true, ({ b with activity := .counted remaining true body }, []), w⟩ := by
  rw [Block.arrive]
  split <;> rename_i act <;> simp only [activity] at act <;> cases act
  rfl

theorem Block.arrive_still (waits : b.Waits) (sleepless : b.sleep? = none) :
    Block.arrive services address b w = ⟨.ok false, (b, []), w⟩ := by
  unfold Waits at waits
  unfold sleep? at sleepless
  rw [Block.arrive]
  split <;> rename_i act
  any_goals rfl
  all_goals simp [act] at waits sleepless

theorem Block.arrive_asleep {s : Sleep} (activity : b.activity = .sleep s)
    (positive : 0 < s.value) :
    Block.arrive services address b w =
      ((s.start services address w).bind (fun s => s) fun _ s w => ⟨.ok false, s, w⟩).within
        fun s => ({ b with activity := .sleep s }, []) := by
  rw [Block.arrive]
  split <;> rename_i act <;> simp only [activity] at act <;> cases act
  simp only [positive, if_true]

theorem Block.arrive_elapsed {s : Sleep} (activity : b.activity = .sleep s)
    (spent : ¬ 0 < s.value) :
    Block.arrive services address b w =
      ⟨.ok true, ({ b with
        activity := .sleep { s with remaining := Sleep.fullLength s.value s.unit } }, []), w⟩ := by
  rw [Block.arrive]
  split <;> rename_i act <;> simp only [activity] at act <;> cases act
  simp only [spent, if_false]

theorem Block.arrive_branchless {join : Join} (activity : b.activity = .parallel join)
    (none : join.branches = []) :
    Block.arrive services address b w =
      ⟨.ok true, ({ b with activity := .parallel { join.opened with done := true } }, []), w⟩ := by
  rw [Block.arrive]
  split <;> rename_i act <;> simp only [activity] at act <;> cases act
  simp only [none, List.isEmpty_nil, if_true, World.noteOpened, List.foldl_nil, Join.opened]

theorem Block.arrive_group {join : Join} (activity : b.activity = .parallel join)
    (some_branch : join.branches ≠ []) :
    Block.arrive services address b w =
      (startThreads services (join.threads address) [] join.opened
        (w.noteOpened join.branches)).within
          fun (join, threads) => ({ b with activity := .parallel join }, threads) := by
  rw [Block.arrive]
  split <;> rename_i act <;> simp only [activity] at act <;> cases act
  simp only [List.isEmpty_iff, some_branch, if_false, Join.opened]

end Arriving

variable {services : Services σ}

theorem Sleep.start_leads {Good' : σ → Prop} (calm : services.Calm Good) (s : Sleep)
    (address : List Nat)
    (leads : Leads Good Good' (services.startCountdown s.value s.unit address)) {w : World σ}
    (good : Good w.host) :
    ∃ s' w', s.start services address w = ⟨.ok (), s', w'⟩ ∧ Good' w'.host ∧
      s'.plan = s.plan ∧ s'.route = address := by
  have countdown : ∀ v : World σ, Good v.host →
      ∃ v', v.startCountdown services s.value s.unit address = (.ok (), v') ∧ Good' v'.host :=
    fun v h => World.ask_leads leads _ h
  unfold start
  by_cases silent : s.silent
  · obtain ⟨token, v, requested, good'⟩ := World.requestPause_ok calm good
    obtain ⟨v', started, good''⟩ := countdown v good'
    simp only [silent, if_true, requested, started]
    exact ⟨_, v', rfl, good'', by simp only [plan, silent], rfl⟩
  · obtain ⟨v', started, good'⟩ := countdown w good
    simp only [silent, started]
    exact ⟨_, v', rfl, good', by simp only [plan, silent], rfl⟩

theorem Block.arrive_waits (reliable : services.Reliable Good) {b : Block} (waits : b.Waits)
    (address : List Nat) {w : World σ} (good : Good w.host) :
    ∃ b' w', Block.arrive services address b w = ⟨.ok false, (b', []), w'⟩ ∧ Good w'.host ∧
      b'.plan = b.plan ∧ b'.hooks = b.hooks := by
  cases activity : b.activity with
  | sleep s =>
    obtain ⟨s', w', started, good', same, -⟩ := s.start_leads reliable.calm address
      (reliable.startCountdown s.value s.unit address) good
    have positive : 0 < s.value := by simpa only [Waits, activity] using waits
    refine ⟨{ b with activity := .sleep s' }, w', ?_, good', ?_, rfl⟩
    · rw [Block.arrive_asleep services address w activity positive, started]
      rfl
    · simp only [Block.plan, Activity.plan, activity, same]
  | _ =>
    have sleepless : b.sleep? = none := by simp only [sleep?, activity]
    exact ⟨b, w, Block.arrive_still services address w waits sleepless, good, rfl, rfl⟩

namespace Execution

section Entering

variable (calm : services.Calm Good)
include calm

/-- The end of a sequence that still runs. -/
theorem enter_nil {e : Execution} (ahead : e.ahead = []) (unfinished : e.finished = false)
    {w : World σ} (good : Good w.host) :
    ∃ w', e.enter services w =
        ⟨.ok (), ⟨{ e.toSequence with finished := true, handle := none }, []⟩, w'⟩ ∧
      Good w'.host := by
  obtain ⟨w', removed, good'⟩ :=
    Sequence.unregister_ok calm { e.toSequence with finished := true } good
  refine ⟨w'.note (.finished e.address), ?_, good'⟩
  rw [enter_end services w ahead]
  simp only [Sequence.finish, unfinished, Bool.false_eq_true, if_false, removed, Outcome.bind,
    Outcome.within]

/-- Entering a block: its reminder is started, and then what it does on arrival tells how the
sequence goes on. -/
theorem enter_cons {e : Execution} {b : Block} {rest : List Block} (ahead : e.ahead = b :: rest)
    {w : World σ} (good : Good w.host) :
    ∃ handle w', Good w'.host ∧
      e.enter services w =
        (Block.arrive services e.address { b with handle } w').bind
          (fun (b, threads) => { e with ahead := b :: rest, threads })
          fun leaves (arrived, threads) w =>
            let w := e.noteEntered arrived w
            if leaves then
              let ahead := { b with handle }.pass ++ rest
              (arrived.leave services w).bind
                (fun left => ⟨{ e.toSequence with ahead := left :: ahead }, []⟩)
                fun _ left w => Execution.enter services ⟨e.advance left ahead, []⟩ (e.noteLeft left w)
            else ⟨.ok (), { e with ahead := arrived :: rest, threads }, w⟩ := by
  obtain ⟨handle, w', registered, good'⟩ := b.register_ok calm good
  exact ⟨handle, w', good', enter_block services ahead registered⟩

/-- A block that waits for an event other than the end of a countdown. -/
theorem enter_still {e : Execution} {b : Block} {rest : List Block} (ahead : e.ahead = b :: rest)
    (waits : b.Waits) (sleepless : b.sleep? = none) {w : World σ} (good : Good w.host) :
    ∃ handle w', e.enter services w =
        ⟨.ok (), ⟨{ e.toSequence with ahead := { b with handle } :: rest }, []⟩, w'⟩ ∧
      Good w'.host := by
  obtain ⟨handle, v, good_v, entered⟩ := enter_cons calm ahead good
  have arrival := Block.arrive_still services e.address (b := { b with handle }) v waits sleepless
  refine ⟨handle, e.noteEntered { b with handle } v, ?_, good_v⟩
  simp only [entered, arrival, Outcome.bind]
  rfl

/-- A wait whose countdown is started. -/
theorem enter_asleep {Good' : σ → Prop} {e : Execution} {b : Block} {rest : List Block} {s : Sleep}
    (ahead : e.ahead = b :: rest) (activity : b.activity = .sleep s) (positive : 0 < s.value)
    (leads : Leads Good Good' (services.startCountdown s.value s.unit e.address)) {w : World σ}
    (good : Good w.host) :
    ∃ handle s' w', e.enter services w =
        ⟨.ok (), ⟨{ e.toSequence with
          ahead := { b with handle, activity := .sleep s' } :: rest }, []⟩, w'⟩ ∧
      Good' w'.host ∧ s'.plan = s.plan ∧ s'.route = e.address := by
  obtain ⟨handle, v, good_v, entered⟩ := enter_cons calm ahead good
  obtain ⟨s', v', started, good_v', plan, route⟩ := s.start_leads calm e.address leads good_v
  have arrival := Block.arrive_asleep services e.address (b := { b with handle }) v activity positive
  rw [started] at arrival
  refine ⟨handle, s', e.noteEntered { b with handle, activity := .sleep s' } v', ?_, good_v', plan,
    route⟩
  simp only [entered, arrival, Outcome.bind]
  rfl

/-- A block that leaves as soon as it has arrived, with the blocks that it puts after itself. -/
theorem enter_leaves {e : Execution} {b : Block} {rest : List Block} (ahead : e.ahead = b :: rest)
    (succeed : b.HooksSucceed) {w : World σ} (good : Good w.host) (arrived : Block → Block)
    (hooks : ∀ c, (arrived c).hooks = c.hooks)
    (idle : ∀ c, (arrived c).CountsIn fun _ => False)
    (arrives : ∀ handle (v : World σ), Good v.host → ∃ v',
      Block.arrive services e.address { b with handle } v =
        ⟨.ok true, (arrived { b with handle }, []), v'⟩ ∧ Good v'.host) :
    ∃ handle w', Good w'.host ∧
      e.enter services w =
        Execution.enter services
          ⟨e.advance (arrived { b with handle }).ended ({ b with handle }.pass ++ rest), []⟩ w' := by
  obtain ⟨handle, v, good_v, entered⟩ := enter_cons calm ahead good
  obtain ⟨v', arrival, good_v'⟩ := arrives handle v good_v
  have quiet : (arrived { b with handle }).HooksSucceed := by
    intro hook h
    rw [hooks] at h
    exact succeed hook h
  obtain ⟨u, left, good_u⟩ :=
    Block.leave_within (w := e.noteEntered (arrived { b with handle }) v') calm.cancelsNone
      (idle _) quiet good_v'
  refine ⟨handle, e.noteLeft (arrived { b with handle }).ended u, good_u, ?_⟩
  simp only [entered, arrival, Outcome.bind, if_true, left]

/-- A wait that is over before it starts. -/
theorem enter_elapsed {e : Execution} {b : Block} {rest : List Block} {s : Sleep}
    (ahead : e.ahead = b :: rest) (activity : b.activity = .sleep s) (spent : ¬ 0 < s.value)
    (succeed : b.HooksSucceed) {w : World σ} (good : Good w.host) :
    ∃ left w', e.enter services w = Execution.enter services ⟨e.advance left rest, []⟩ w' ∧
      Good w'.host ∧ left.shape = b.shape := by
  obtain ⟨handle, w', good', entered⟩ := enter_leaves calm ahead succeed good
    (fun c => { c with
      activity := .sleep { s with remaining := Sleep.fullLength s.value s.unit } })
    (fun _ => rfl)
    (by
      rintro c _ ⟨⟩ running
      rw [Sleep.isRunning, Sleep.isPositive_fullLength spent] at running
      exact absurd running Bool.false_ne_true)
    (fun handle v h =>
      ⟨v, Block.arrive_elapsed services e.address (b := { b with handle }) v activity spent, h⟩)
  have no_pass : ({ b with handle } : Block).pass = [] := by simp only [Block.pass, activity]
  rw [no_pass, List.nil_append] at entered
  refine ⟨_, w', entered, good', ?_⟩
  simp only [Block.shape, activity]
  rfl

/-- A counted loop with no pass left. -/
theorem enter_exhausted {e : Execution} {b : Block} {rest : List Block} {remaining : Int}
    {before : Bool} {body : List Template} (ahead : e.ahead = b :: rest)
    (activity : b.activity = .counted remaining before body) (spent : ¬ 0 < remaining)
    (succeed : b.HooksSucceed) {w : World σ} (good : Good w.host) :
    ∃ left w', e.enter services w = Execution.enter services ⟨e.advance left rest, []⟩ w' ∧
      Good w'.host ∧ left.shape = b.shape := by
  obtain ⟨handle, w', good', entered⟩ := enter_leaves calm ahead succeed good
    (fun c => { c with activity := .counted remaining true body })
    (fun _ => rfl) (fun _ => nofun)
    (fun handle v h => ⟨v, by
      rw [Block.arrive_counted services e.address (b := { b with handle }) v activity,
        if_neg spent], h⟩)
  have no_pass : ({ b with handle } : Block).pass = [] := by
    simp only [Block.pass, activity, spent, if_false]
  rw [no_pass, List.nil_append] at entered
  refine ⟨_, w', entered, good', ?_⟩
  simp only [Block.shape, activity]
  rfl

/-- A counted loop with a pass left: its body comes next, and then the loop with one pass less. -/
theorem enter_pass {e : Execution} {b : Block} {rest : List Block} {remaining : Int}
    {before : Bool} {body : List Template} (ahead : e.ahead = b :: rest)
    (activity : b.activity = .counted remaining before body) (more : 0 < remaining)
    (succeed : b.HooksSucceed) {w : World σ} (good : Good w.host) :
    ∃ left next w', e.enter services w =
        Execution.enter services
          ⟨e.advance left (body.map Block.ofTemplate ++ next :: rest), []⟩ w' ∧
      Good w'.host ∧ left.shape = b.shape ∧ next.hooks = [] ∧
      next.activity = .counted (remaining - 1) true body ∧
      next.plan = { b.plan with activity := .counted (remaining - 1) false body } := by
  obtain ⟨handle, w', good', entered⟩ := enter_leaves calm ahead succeed good
    (fun c => { c with activity := .counted remaining true body, handle := none })
    (fun _ => rfl) (fun _ => nofun)
    (fun handle v h => ⟨v.noteBuilt body, by
      rw [Block.arrive_counted services e.address (b := { b with handle }) v activity,
        if_pos more], h⟩)
  have pass : ({ b with handle } : Block).pass = body.map Block.ofTemplate ++
      [({ b with handle } : Block).successor (.counted (remaining - 1) true body)] := by
    simp only [Block.pass, activity, more, if_true]
  rw [pass, List.append_assoc, List.singleton_append] at entered
  refine ⟨_, _, w', entered, good', ?_, rfl, rfl, rfl⟩
  simp only [Block.shape, activity]
  rfl

/-- A group without branches. -/
theorem enter_branchless {e : Execution} {b : Block} {rest : List Block} {join : Join}
    (ahead : e.ahead = b :: rest) (activity : b.activity = .parallel join)
    (none : join.branches = []) (succeed : b.HooksSucceed) {w : World σ} (good : Good w.host) :
    ∃ left w', e.enter services w = Execution.enter services ⟨e.advance left rest, []⟩ w' ∧
      Good w'.host ∧ left.shape = b.shape ∧
      left.activity = .parallel { join.opened with done := true } := by
  obtain ⟨handle, w', good', entered⟩ := enter_leaves calm ahead succeed good
    (fun c => { c with activity := .parallel { join.opened with done := true } })
    (fun _ => rfl) (fun _ => nofun)
    (fun handle v h =>
      ⟨v, Block.arrive_branchless services e.address (b := { b with handle }) v activity none, h⟩)
  have no_pass : ({ b with handle } : Block).pass = [] := by simp only [Block.pass, activity]
  rw [no_pass, List.nil_append] at entered
  refine ⟨_, w', entered, good', ?_, rfl⟩
  simp only [Block.shape, activity]
  rfl

/-- A group with branches starts its threads. If it is still open then, it waits for them. -/
theorem enter_group {e : Execution} {b : Block} {rest : List Block} {join : Join}
    (ahead : e.ahead = b :: rest) (activity : b.activity = .parallel join)
    (some_branch : join.branches ≠ []) (succeed : b.HooksSucceed) {w : World σ}
    (good : Good w.host) :
    ∃ v, Good v.host ∧ ∀ (Good' : σ → Prop), services.Calm Good' → ∀ ended counted threads v',
      startThreads services (join.threads e.address) [] join.opened v =
        ⟨.ok ended, (counted, threads), v'⟩ → Good' v'.host →
      ∃ handle w', Good' w'.host ∧ e.enter services w =
        if ended then
          Execution.enter services
            ⟨e.advance ({ b with handle, activity := .parallel counted } : Block).ended rest, []⟩ w'
        else ⟨.ok (), ⟨{ e.toSequence with
          ahead := { b with handle, activity := .parallel counted } :: rest }, threads⟩, w'⟩ := by
  obtain ⟨handle, v, good_v, entered⟩ := enter_cons calm ahead good
  refine ⟨v.noteOpened join.branches, by simpa using good_v, ?_⟩
  intro Good' calm' ended counted threads v' started good_v'
  have arrival : Block.arrive services e.address { b with handle } v =
      ⟨.ok ended, ({ b with handle, activity := .parallel counted }, threads), v'⟩ := by
    rw [Block.arrive_group services e.address (b := { b with handle }) v activity some_branch,
      started]
    rfl
  have no_pass : ({ b with handle } : Block).pass = [] := by simp only [Block.pass, activity]
  simp only [arrival, Outcome.bind, no_pass, List.nil_append] at entered
  cases ended with
  | false =>
    simp only [Bool.false_eq_true, if_false] at entered ⊢
    refine ⟨handle, _, ?_, entered⟩
    exact good_v'
  | true =>
    have idle : ({ b with handle, activity := .parallel counted } : Block).CountsIn
        fun _ => False := by
      rintro s ⟨⟩
    obtain ⟨u, left, good_u⟩ := Block.leave_within
      (w := e.noteEntered { b with handle, activity := .parallel counted } v')
      calm'.cancelsNone idle succeed good_v'
    simp only [if_true, left] at entered ⊢
    refine ⟨handle, _, ?_, entered⟩
    exact good_u

end Entering

theorem enter_waits (reliable : services.Reliable Good) {e : Execution} {b : Block}
    {rest : List Block} (ahead : e.ahead = b :: rest) (waits : b.Waits) {w : World σ}
    (good : Good w.host) :
    ∃ b' w', e.enter services w =
        ⟨.ok (), ⟨{ e.toSequence with ahead := b' :: rest }, []⟩, w'⟩ ∧
      Good w'.host ∧ b'.plan = b.plan ∧ b'.hooks = b.hooks := by
  cases asleep : b.sleep? with
  | none =>
    obtain ⟨handle, w', entered, good'⟩ := enter_still reliable.calm ahead waits asleep good
    exact ⟨{ b with handle }, w', entered, good', rfl, rfl⟩
  | some s =>
    have activity := Block.activity_of_sleep? asleep
    have positive : 0 < s.value := by simpa only [Block.Waits, activity] using waits
    obtain ⟨handle, s', w', entered, good', plan, -⟩ := enter_asleep reliable.calm ahead activity
      positive (reliable.startCountdown s.value s.unit e.address) good
    refine ⟨_, w', entered, good', ?_, rfl⟩
    simp only [Block.plan, Activity.plan, activity, plan]

end Execution

end Stepwise
