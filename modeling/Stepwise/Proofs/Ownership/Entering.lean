import Stepwise.Proofs.Entering
import Stepwise.Proofs.Ownership.Leaving

/-!
# Entering keeps the book balanced

Entering a sequence starts reminders, hands that of a counted loop on to its next pass, and gives
back what the blocks hold that leave at once. The numbers that the sequence holds then are balanced
by the book, also if the host fails on the way.
-/

namespace Stepwise

variable {σ : Type}

/-- What an operation leaves of an execution is tidy, and the book is balanced by what it holds and
by the other numbers. -/
structure Outcome.Balanced {α : Type} (book : σ → ReminderBook) (ids : List Nat)
    (o : Outcome σ Execution α) : Prop where
  owns : o.world.Owns book (o.part.held ++ ids)
  tidy : o.part.Tidy

/-- Entering the execution keeps the book balanced. -/
def Execution.EntersBalanced (services : Services σ) (book : σ → ReminderBook) (e : Execution) : Prop :=
  ∀ (w : World σ) (ids : List Nat), w.Owns book (e.held ++ ids) →
    (e.enter services w).Balanced book ids

@[simp]
theorem threadsHeld_threadsFrom (address : List Nat) (first : Nat)
    (branches : List (List Template)) : threadsHeld (threadsFrom address first branches) = [] := by
  induction branches generalizing first with
  | nil => rfl
  | cons templates rest ih =>
    rw [threadsFrom, threadsHeld_cons, ih, Execution.held_eq]
    simp [Execution.fresh, Sequence.fresh]

theorem tidy_fresh (description : Option String) (reminder : Option Reminder) (address : List Nat)
    (templates : List Template) :
    (Execution.fresh description reminder address (templates.map Block.ofTemplate)).Tidy := by
  refine ⟨List.forall_mem_nil _, fun b mem => ?_, fun _ => ?_, trivial⟩
  · obtain ⟨t, -, rfl⟩ := List.mem_map.mp mem
    exact Block.hooksSucceed_ofTemplate t
  · refine ⟨?_, fun _ => ⟨rfl, rfl, rfl⟩⟩
    rw [Execution.held_eq]
    simp [Sequence.fresh]

theorem allTidy_threadsFrom (address : List Nat) (first : Nat) (branches : List (List Template)) :
    allTidy (threadsFrom address first branches) := by
  induction branches generalizing first with
  | nil => trivial
  | cons templates rest ih => exact ⟨tidy_fresh _ _ _ _, ih (first + 1)⟩

variable {book : σ → ReminderBook} {services : Services σ}

/-- An execution that runs is tidy if its parts are. -/
theorem tidy_of_running {line : Sequence} {threads : List Thread}
    (running : line.isRunning = true) (behind : ∀ b ∈ line.behind, b.held = [])
    (hooks : ∀ b ∈ line.ahead, b.HooksSucceed) (tidy : allTidy threads) :
    Execution.Tidy ⟨line, threads⟩ := by
  refine ⟨behind, hooks, fun idle => ?_, tidy⟩
  rw [running] at idle
  cases idle

theorem tidy_startedThread (address : List Nat) (templates : List Template) :
    (startedThread address templates).Tidy := by
  refine tidy_of_running rfl (List.forall_mem_nil _) (fun c mem => ?_) trivial
  obtain ⟨t, -, rfl⟩ := List.mem_map.mp mem
  exact Block.hooksSucceed_ofTemplate t

theorem Block.hooksSucceed_pass (b : Block) : ∀ c ∈ b.pass, c.HooksSucceed := by
  intro c mem
  unfold Block.pass at mem
  split at mem
  · split at mem
    · rcases List.mem_append.mp mem with mem | mem
      · obtain ⟨t, -, rfl⟩ := List.mem_map.mp mem
        exact Block.hooksSucceed_ofTemplate t
      · rw [List.mem_singleton.mp mem]
        exact List.forall_mem_nil _
    · cases mem
  · cases mem

section Starting

variable (keeps : services.KeepsBook book)
include keeps

theorem startThreads_owns {branches : List (List Template)}
    (balanced : ∀ templates ∈ branches, ∀ address,
      (startedThread address templates).EntersBalanced services book)
    (address : List Nat) (first : Nat) {started : List Thread} {join : Join} {w : World σ}
    {ids : List Nat} (undone : join.done = false) (tidy : allTidy started)
    (owns : w.Owns book (threadsHeld started ++ ids)) :
    ∃ answer join' threads w', startThreads services (threadsFrom address first branches) started
        join w = ⟨answer, (join', threads), w'⟩ ∧
      w'.Owns book (threadsHeld threads ++ ids) ∧ allTidy threads ∧
      (answer = .ok true → threads = []) := by
  induction branches generalizing first started join w with
  | nil =>
    refine ⟨.ok false, join, started, w, ?_, owns, tidy, by rintro ⟨⟩⟩
    rw [threadsFrom, startThreads]
  | cons templates rest ih =>
    have rest_balanced := fun ts mem => balanced ts (List.mem_cons_of_mem templates mem)
    have unstarted : (startedThread (address ++ [first]) templates).held = [] := by
      rw [Execution.held_eq]
      simp [startedThread, Execution.fresh, Sequence.fresh]
    have entered := balanced templates List.mem_cons_self (address ++ [first]) w
      (threadsHeld started ++ ids) (by rwa [unstarted, List.nil_append])
    rw [startThreads_next]
    generalize Execution.enter services (startedThread (address ++ [first]) templates) w = o
      at entered ⊢
    obtain ⟨result, e, v⟩ := o
    obtain ⟨owns_v, e_tidy⟩ := entered
    have kept : v.Owns book (threadsHeld (started ++ [⟨first, e⟩]) ++ ids) := by
      refine owns_v.congr fun id => ?_
      simp only [threadsHeld_append, threadsHeld_cons, threadsHeld_nil, List.count_append,
        List.count_nil]
      omega
    have kept_tidy : allTidy (started ++ [⟨first, e⟩]) :=
      (allTidy_append _ _).mpr ⟨tidy, e_tidy, trivial⟩
    cases result with
    | error error =>
      refine ⟨.error error, join, _, v, rfl, ?_, ?_, by rintro ⟨⟩⟩
      · refine kept.congr fun id => ?_
        simp only [threadsHeld_append, threadsHeld_cons, threadsHeld_nil, threadsHeld_threadsFrom]
      · exact (allTidy_append _ _).mpr ⟨tidy, e_tidy, allTidy_threadsFrom _ _ _⟩
    | ok _ =>
      simp only [Outcome.bind]
      split
      · next finished =>
        have nothing := e_tidy.held_of_finished finished
        have others_owns : v.Owns book
            (threadsHeld (started ++ threadsFrom address (first + 1) rest) ++ ids) := by
          simpa [nothing] using owns_v
        obtain ⟨answer, join', threads, u, completed, owns_u, threads_tidy, ends, stays⟩ :=
          join.complete_owns keeps ((allTidy_append _ _).mpr ⟨tidy, allTidy_threadsFrom _ _ _⟩)
            others_owns
        rw [completed]
        cases answer with
        | error error =>
          exact ⟨.error error, join', threads, u, rfl, owns_u, threads_tidy, by rintro ⟨⟩⟩
        | ok ended =>
          cases ended with
          | true =>
            exact ⟨.ok true, join', threads, u, rfl, owns_u, threads_tidy, fun _ => ends rfl⟩
          | false =>
            obtain ⟨rfl, undone'⟩ := stays undone rfl
            simp only [threadsHeld_append, threadsHeld_threadsFrom, List.append_nil] at owns_u
            exact ih rest_balanced (first + 1) undone' tidy owns_u
      · exact ih rest_balanced (first + 1) undone kept_tidy kept

theorem Sleep.start_owns (s : Sleep) (address : List Nat) {w : World σ} {ids : List Nat}
    (owns : w.Owns book ids) :
    ∃ answer s' w', s.start services address w = ⟨answer, s', w'⟩ ∧ w'.Owns book ids := by
  have countdown : ∀ v : World σ, v.Owns book ids →
      (v.startCountdown services s.value s.unit address).2.Owns book ids := fun v h =>
    World.ask_owns (keeps.startCountdown s.value s.unit address) _ h
  unfold start
  by_cases silent : s.silent
  · obtain ⟨token, v, requested, owns_v⟩ := World.requestPause_owns keeps owns
    simp only [silent, if_true, requested]
    exact ⟨_, _, _, rfl, countdown v owns_v⟩
  · simp only [silent]
    exact ⟨_, _, _, rfl, countdown w owns⟩

/-- A block that has arrived, with its threads and the blocks that it puts after itself, holds what
it held before and what its threads have started. -/
def Block.ArrivesBalanced (services : Services σ) (book : σ → ReminderBook) (address : List Nat)
    (b : Block) : Prop :=
  ∀ (w : World σ) (ids : List Nat), w.Owns book (b.held ++ ids) →
    ∃ answer b' threads w', Block.arrive services address b w = ⟨answer, (b', threads), w'⟩ ∧
      w'.Owns book (b'.held ++ (threadsHeld threads ++ (blocksHeld b.pass ++ ids))) ∧
      allTidy threads ∧ b'.hooks = b.hooks ∧
      (answer = .ok true → threads = []) ∧ (answer ≠ .ok true → b.pass = [])

namespace Block.ArrivesBalanced

variable {address : List Nat} {b : Block}

omit keeps in
/-- Arrival neither asks the host for anything nor makes blocks or threads. -/
theorem of_still {leaves : Bool} {b' : Block}
    (arrives : ∀ w : World σ, Block.arrive services address b w = ⟨.ok leaves, (b', []), w⟩)
    (no_pass : b.pass = []) (held : b'.held = b.held) (hooks : b'.hooks = b.hooks) :
    b.ArrivesBalanced services book address := by
  intro w ids owns
  refine ⟨.ok leaves, b', [], w, arrives w, ?_, trivial, hooks, fun _ => rfl, fun _ => no_pass⟩
  rw [no_pass, held]
  exact owns

omit keeps in
theorem of_counted {remaining : Int} {entered : Bool} {body : List Template}
    (activity : b.activity = .counted remaining entered body) :
    b.ArrivesBalanced services book address := by
  by_cases more : 0 < remaining
  · intro w ids owns
    refine ⟨.ok true, { b with handle := none, activity := .counted remaining true body }, [],
      w.noteBuilt body, ?_, ?_, trivial, rfl, fun _ => rfl, fun h => absurd rfl h⟩
    · rw [Block.arrive_counted services address w activity, if_pos more]
    · refine (owns.noteBuilt body).congr fun id => ?_
      simp only [Block.pass, activity, more, if_true, blocksHeld_append, blocksHeld_ofTemplates,
        blocksHeld_cons, blocksHeld_nil, Block.held, Block.successor, threadsHeld_nil,
        List.flatMap_nil, Option.toList_none, List.count_append, List.count_nil]
      omega
  · have arrives : ∀ w : World σ, Block.arrive services address b w =
        ⟨.ok true, ({ b with activity := .counted remaining true body }, []), w⟩ := by
      intro w
      rw [Block.arrive_counted services address w activity, if_neg more]
    refine of_still arrives ?_ rfl rfl
    simp only [Block.pass, activity, more, if_false]

theorem of_sleep {s : Sleep} (activity : b.activity = .sleep s) :
    b.ArrivesBalanced services book address := by
  have no_pass : b.pass = [] := by simp only [Block.pass, activity]
  by_cases positive : 0 < s.value
  · intro w ids owns
    obtain ⟨answer, s', w', started, owns'⟩ := s.start_owns keeps address owns
    cases answer with
    | ok _ =>
      refine ⟨.ok false, { b with activity := .sleep s' }, [], w', ?_, ?_, trivial, rfl,
        by rintro ⟨⟩, fun _ => no_pass⟩
      · rw [Block.arrive, activity]
        simp only [positive, if_true, started, Outcome.bind, Outcome.within]
      · rw [no_pass]
        exact owns'
    | error e =>
      refine ⟨.error e, { b with activity := .sleep s' }, [], w', ?_, ?_, trivial, rfl,
        by rintro ⟨⟩, fun _ => no_pass⟩
      · rw [Block.arrive, activity]
        simp only [positive, if_true, started, Outcome.bind, Outcome.within]
      · rw [no_pass]
        exact owns'
  · exact of_still (fun w => Block.arrive_elapsed services address w activity positive) no_pass
      rfl rfl

theorem of_group {join : Join} (activity : b.activity = .parallel join)
    (balanced : ∀ templates ∈ join.branches, ∀ address,
      (startedThread address templates).EntersBalanced services book) :
    b.ArrivesBalanced services book address := by
  have no_pass : b.pass = [] := by simp only [Block.pass, activity]
  by_cases none : join.branches = []
  · exact of_still (fun w => Block.arrive_branchless services address w activity none) no_pass
      rfl rfl
  · intro w ids owns
    have owns_v : (w.noteOpened join.branches).Owns book (threadsHeld [] ++ (b.held ++ ids)) :=
      owns.noteOpened join.branches
    have undone : join.opened.done = false := rfl
    have none_started : allTidy [] := trivial
    obtain ⟨answer, join', threads, w', started, owns', tidy, ends⟩ :=
      startThreads_owns keeps balanced address 0 undone none_started owns_v
    refine ⟨answer, { b with activity := .parallel join' }, threads, w', ?_, ?_, tidy, rfl, ends,
      fun _ => no_pass⟩
    · rw [Block.arrive_group services address w activity none, Join.threads, started]
      rfl
    · refine owns'.congr fun id => ?_
      simp only [Block.held, no_pass, blocksHeld_nil, List.count_append, List.count_nil]
      omega

end Block.ArrivesBalanced

theorem Block.arrive_owns (address : List Nat) {b : Block}
    (balanced : ∀ join, b.activity = .parallel join → ∀ templates ∈ join.branches, ∀ address,
      (startedThread address templates).EntersBalanced services book) :
    b.ArrivesBalanced services book address := by
  cases activity : b.activity with
  | task | condition | asked =>
    have arrives : ∀ w : World σ, Block.arrive services address b w = ⟨.ok false, (b, []), w⟩ := by
      intro w
      rw [Block.arrive, activity]
    refine .of_still arrives ?_ rfl rfl
    simp only [Block.pass, activity]
  | counted remaining entered body => exact .of_counted activity
  | sleep s => exact .of_sleep keeps activity
  | parallel join => exact .of_group keeps activity (balanced join activity)

end Starting

namespace Execution

variable {e : Execution} {b : Block} {rest : List Block}

section Entering

variable (keeps : services.KeepsBook book)
include keeps

theorem EntersBalanced.of_end (tidy : e.Tidy) (running : e.isRunning = true)
    (threads : e.threads = []) (now : e.ahead = []) : e.EntersBalanced services book := by
  intro w ids owns
  obtain ⟨behind, -, -, -⟩ := (tidy_iff e).mp tidy
  have unfinished : e.finished = false := by
    simp only [Sequence.isRunning, Bool.and_eq_true, Bool.not_eq_true'] at running
    exact running.1.2
  rw [held_eq, threads, now, blocksHeld_eq_nil behind] at owns
  simp only [blocksHeld_nil, threadsHeld_nil, List.append_nil] at owns
  obtain ⟨w', removed, owns'⟩ :=
    Sequence.unregister_owns keeps { e.toSequence with finished := true } owns
  have entered : e.enter services w = ⟨.ok (),
      ⟨{ e.toSequence with finished := true, handle := none }, []⟩, w'.note (.finished e.address)⟩ := by
    rw [enter_end services w now]
    simp only [Sequence.finish, unfinished, Bool.false_eq_true, if_false, removed, Outcome.bind,
      Outcome.within]
  have nothing : held ⟨{ e.toSequence with finished := true, handle := none }, []⟩ = [] := by
    rw [held_eq, now, blocksHeld_eq_nil behind]
    rfl
  rw [entered]
  have started : e.started = true := by
    simp only [Sequence.isRunning, Bool.and_eq_true] at running
    exact running.1.1
  refine ⟨?_, behind, ?_, fun _ => ⟨nothing, fun unstarted => ?_⟩, trivial⟩
  · rw [nothing]
    exact owns'.note _
  · rw [now]
    exact List.forall_mem_nil _
  · exact absurd (started.symm.trans unstarted) Bool.true_eq_false.mp

omit keeps in
/-- A running execution whose current block is put back, with its threads. -/
theorem balanced_with_block {α : Type} (tidy : e.Tidy) (running : e.isRunning = true)
    {ahead : List Block} {threads : List Thread} (hooks : b.HooksSucceed)
    (ahead_hooks : ∀ c ∈ ahead, c.HooksSucceed) (threads_tidy : allTidy threads)
    (result : Except ServiceError α) {w : World σ} {ids : List Nat}
    (owns : w.Owns book (b.held ++ (threadsHeld threads ++
      (e.handle.toList ++ (blocksHeld ahead ++ ids))))) :
    Outcome.Balanced book ids
      ⟨result, ⟨{ e.toSequence with ahead := b :: ahead }, threads⟩, w⟩ := by
  obtain ⟨behind, -, -, -⟩ := (tidy_iff e).mp tidy
  refine ⟨owns.congr fun id => ?_, tidy_of_running running behind (fun c mem => ?_) threads_tidy⟩
  · simp only [held_eq, blocksHeld_eq_nil behind, blocksHeld_cons, List.count_append,
      List.count_nil]
    omega
  · rcases List.mem_cons.mp mem with rfl | mem
    · exact hooks
    · exact ahead_hooks c mem

/-- A block leaves, and the blocks ahead are entered. -/
theorem balanced_of_leave (tidy : e.Tidy) (running : e.isRunning = true) {ahead : List Block}
    (hooks : b.HooksSucceed) (ahead_hooks : ∀ c ∈ ahead, c.HooksSucceed)
    (goes_on : ∀ left, left.held = [] → EntersBalanced services book ⟨e.advance left ahead, []⟩)
    {w : World σ} {ids : List Nat}
    (owns : w.Owns book (b.held ++ (e.handle.toList ++ (blocksHeld ahead ++ ids)))) :
    ((b.leave services w).bind
      (fun left => (⟨{ e.toSequence with ahead := left :: ahead }, []⟩ : Execution))
      fun _ left w => Execution.enter services ⟨e.advance left ahead, []⟩
        (e.noteLeft left w)).Balanced book ids := by
  obtain ⟨behind, -, -, -⟩ := (tidy_iff e).mp tidy
  rcases b.leave_owns keeps hooks owns with
    ⟨left, v, has_left, nothing, owns_v⟩ | ⟨error, left, v, refused, held, same_hooks, owns_v, -⟩
  · rw [has_left]
    refine goes_on left nothing (e.noteLeft left v) ids ((owns_v.note _).congr fun id => ?_)
    simp only [held_eq, Sequence.advance, blocksHeld_cons, nothing, blocksHeld_eq_nil behind,
      threadsHeld_nil, List.count_append, List.count_nil]
    omega
  · rw [refused]
    have still : left.HooksSucceed := by
      intro hook mem
      rw [same_hooks] at mem
      exact hooks hook mem
    have kept : v.Owns book (left.held ++ (threadsHeld [] ++
        (e.handle.toList ++ (blocksHeld ahead ++ ids)))) := by
      rw [held]
      exact owns_v
    have no_threads : allTidy [] := trivial
    exact balanced_with_block tidy running still ahead_hooks no_threads (.error error) kept

theorem enter_owns (tidy : e.Tidy) (running : e.isRunning = true) (threads : e.threads = []) :
    e.EntersBalanced services book := by
  induction weight : blocksWeight e.ahead using Nat.strongRecOn generalizing e with
  | ind n ih =>
  cases now : e.ahead with
  | nil => exact .of_end keeps tidy running threads now
  | cons b rest =>
    intro w ids owns
    obtain ⟨behind, hooks, -, -⟩ := (tidy_iff e).mp tidy
    rw [now] at hooks weight
    rw [blocksWeight_cons] at weight
    have rest_hooks : ∀ c ∈ rest, c.HooksSucceed :=
      fun c mem => hooks c (List.mem_cons_of_mem b mem)
    have regrouped : w.Owns book (b.handle.toList ++ (b.hooks.flatMap LeaveHook.held ++
        (e.handle.toList ++ (blocksHeld rest ++ ids)))) := by
      refine owns.congr fun id => ?_
      simp only [held_eq, now, threads, blocksHeld_eq_nil behind, blocksHeld_cons, threadsHeld_nil,
        Block.held, List.count_append, List.count_nil]
      omega
    obtain ⟨handle, v, registered, owns_v⟩ := b.register_owns keeps regrouped
    have starts : ∀ join, b.activity = .parallel join → ∀ templates ∈ join.branches, ∀ address,
        (startedThread address templates).EntersBalanced services book := by
      intro join activity templates mem address
      have less := weight_lt_weightBranches mem
      refine ih _ ?_ (tidy_startedThread address templates) rfl rfl rfl
      simp only [startedThread, fresh, Sequence.fresh, blocksWeight_ofTemplates]
      simp only [Block.weight, activity] at weight
      omega
    have arriving : v.Owns book (({ b with handle } : Block).held ++
        (e.handle.toList ++ (blocksHeld rest ++ ids))) := by
      rw [Block.held, List.append_assoc]
      exact owns_v
    obtain ⟨answer, b', ts, u, arrived, owns_u, ts_tidy, same_hooks, leaves, stays⟩ :=
      Block.arrive_owns (b := { b with handle }) keeps e.address starts v _ arriving
    have hooks' : b'.HooksSucceed := by
      intro hook in_hooks
      rw [same_hooks] at in_hooks
      exact hooks b List.mem_cons_self hook in_hooks
    have put_back : answer ≠ .ok true → u.Owns book (b'.held ++ (threadsHeld ts ++
        (e.handle.toList ++ (blocksHeld rest ++ ids)))) := by
      intro waits
      rw [stays waits] at owns_u
      exact owns_u
    rw [enter_block services now registered, arrived]
    cases answer with
    | error error =>
      exact balanced_with_block tidy running hooks' rest_hooks ts_tidy _ (put_back (by rintro ⟨⟩))
    | ok leaving =>
      cases leaving with
      | false =>
        exact balanced_with_block tidy running hooks' rest_hooks ts_tidy _
          ((put_back (by rintro ⟨⟩)).note _)
      | true =>
        rw [leaves rfl] at owns_u
        have pass_hooks : ∀ c ∈ ({ b with handle } : Block).pass ++ rest, c.HooksSucceed := by
          intro c mem
          rcases List.mem_append.mp mem with mem | mem
          · exact Block.hooksSucceed_pass _ c mem
          · exact rest_hooks c mem
        refine balanced_of_leave keeps tidy running hooks' pass_hooks ?_
          ((owns_u.note _).congr fun id => ?_)
        · intro left nothing
          refine ih _ ?_ (tidy_of_running running ?_ pass_hooks trivial) running rfl rfl
          · have less := Block.weight_pass_lt { b with handle }
            have same : ({ b with handle } : Block).weight = b.weight := rfl
            simp only [Sequence.advance, blocksWeight_append]
            omega
          · intro c mem
            rcases List.mem_cons.mp mem with rfl | mem
            · exact nothing
            · exact behind c mem
        · simp only [blocksHeld_append, threadsHeld_nil, List.count_append, List.count_nil]
          omega

end Entering

end Execution

end Stepwise
