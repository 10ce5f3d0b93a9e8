import Stepwise.Proofs.Monitor.Delivery
import Stepwise.Proofs.Releasing.Runs

/-!
# Monitoring what happens within a call

A monitor that is fine when a call begins is fine at the beginning of each operation within it, and
whenever a thread is cancelled. What the monitor then knows of is what the operation works on, the
thread that is cancelled, and other things that the call comes back to.
-/

namespace Stepwise

variable {σ : Type} {services : Services σ} {m : Monitor services}

/-- The monitor is fine, with these duties and perhaps others. -/
def Monitor.FineWith (m : Monitor services) (w : World σ) (duties : List Duty) : Prop :=
  ∃ others, m.Fine w (duties ++ others)

namespace Monitor.FineWith

variable {w : World σ} {duties left : List Duty}

theorem fewer (fine : m.FineWith w duties) (le : ∀ d, left.count d ≤ duties.count d) :
    m.FineWith w left := by
  obtain ⟨others, fine⟩ := fine
  refine ⟨others, m.fewer fine fun d => ?_⟩
  rw [List.count_append, List.count_append]
  exact Nat.add_le_add_right (le d) _

theorem part {rest : List Duty} (fine : m.FineWith w (duties ++ rest)) : m.FineWith w duties := by
  obtain ⟨others, fine⟩ := fine
  rw [List.append_assoc] at fine
  exact ⟨rest ++ others, fine⟩

/-- What is carried along beside what an operation works on stays. -/
theorem through {v : World σ} {rest : List Duty} (fine : m.FineWith w (duties ++ rest))
    (keeps : ∀ others, m.Fine w (duties ++ others) → m.Fine v (left ++ others)) :
    m.FineWith v (left ++ rest) := by
  obtain ⟨others, fine⟩ := fine
  rw [List.append_assoc] at fine
  refine ⟨others, ?_⟩
  rw [List.append_assoc]
  exact keeps (rest ++ others) fine

theorem note {entry : Entry} (fine : m.FineWith w duties) (is_note : entry.IsNote m.Follows) :
    m.FineWith (w.note entry) duties := by
  obtain ⟨others, fine⟩ := fine
  exact ⟨others, m.note is_note fine⟩

end Monitor.FineWith

section

variable (all : ∀ address, m.Follows address)
include all

theorem Execution.enter_fineWith {e e' : Execution} {w v : World σ} {rest : List Duty}
    (fine : m.FineWith w (e.duties ++ rest)) (entered : e.enter services w = ⟨.ok (), e', v⟩) :
    m.FineWith v (e'.duties ++ rest) := by
  refine fine.through fun others fine => ?_
  have keeps := e.enter_monitored w others (e.within_all all) fine
  rw [entered] at keeps
  exact keeps.1

theorem Execution.dispatch_fineWith {e e' : Execution} {event : Event} {path : List Nat}
    {w v : World σ} {rest : List Duty} (fine : m.FineWith w (e.duties ++ rest))
    (delivered : e.dispatch services event path w = ⟨.ok (), e', v⟩) :
    m.FineWith v (e'.duties ++ rest) := by
  refine fine.through fun others fine => ?_
  have keeps := e.dispatch_monitored event path (e.within_all all) fine
  rw [delivered] at keeps
  exact keeps.1

theorem cancelThreads_fineWith {threads : List Thread} {w v : World σ} {rest : List Duty}
    (fine : m.FineWith w (threadsDuties threads ++ rest))
    (cancelled : cancelThreads services threads w = ⟨.ok (), (), v⟩) : m.FineWith v rest := by
  have nothing_left : m.FineWith v ([] ++ rest) := fine.through fun others fine => by
    have keeps := cancelThreads_monitored (allWithin_all all threads) fine
    rw [cancelled] at keeps
    exact keeps
  exact nothing_left

theorem Join.complete_fineWith {join join' : Join} {threads left : List Thread} {ended : Bool}
    {w v : World σ} {rest : List Duty} (fine : m.FineWith w (threadsDuties threads ++ rest))
    (counted : join.complete services threads w = ⟨.ok ended, (join', left), v⟩) :
    m.FineWith v (threadsDuties left ++ rest) := by
  refine fine.through fun others fine => ?_
  have keeps := join.complete_monitored (allWithin_all all threads) fine
  rw [counted] at keeps
  exact keeps.1

end

theorem Block.leave_fineWith {b left : Block} {w v : World σ} {rest : List Duty}
    (fine : m.FineWith w (b.duties ++ rest)) (leaves : b.leave services w = ⟨.ok (), left, v⟩) :
    m.FineWith v (left.duties ++ rest) := by
  refine fine.through fun others fine => ?_
  have keeps := b.leave_monitored fine
  rw [leaves] at keeps
  exact keeps

theorem Block.register_fineWith {b : Block} {handle : Option Nat} {w v : World σ}
    {rest : List Duty} (fine : m.FineWith w (b.duties ++ rest))
    (registered : b.register services w = (.ok handle, v)) :
    m.FineWith v (({ b with handle } : Block).duties ++ rest) := by
  refine fine.through fun others fine => ?_
  have keeps := b.register_monitored fine
  rw [registered] at keeps
  exact keeps

theorem Block.react_fineWith {b b' : Block} {event : Event} {reaction : Reaction} {w v : World σ}
    {rest : List Duty} (fine : m.FineWith w (b.duties ++ rest))
    (reacted : b.react services event w = ⟨.ok reaction, b', v⟩) :
    m.FineWith v ((b'.duties ++ blocksDuties reaction.after) ++ rest) := by
  refine fine.through fun others fine => ?_
  have keeps := b.react_monitored event fine
  rw [reacted] at keeps
  rw [List.append_assoc]
  exact keeps

/-- The block that leaves is behind the sequence, and what comes next is ahead of it. -/
theorem Execution.advance_fineWith (all : ∀ address, m.Follows address) {e : Execution}
    {b left : Block} {ahead : List Block} {w v : World σ}
    (fine : m.FineWith w (b.duties ++ (handleDuties e.handle ++
      (blocksDuties e.behind ++ blocksDuties ahead))))
    (leaves : b.leave services w = ⟨.ok (), left, v⟩) :
    m.FineWith (e.noteLeft left v) (Execution.duties ⟨e.advance left ahead, []⟩) := by
  have left_note : (Entry.left e.address e.cursor left.shownText).IsNote m.Follows := all e.address
  refine ((Block.leave_fineWith fine leaves).note left_note).fewer fun d => ?_
  simp only [Execution.duties, Sequence.advance, blocksDuties_cons, threadsDuties_nil,
    List.count_append, List.count_nil]
  omega

/-- A block that has arrived and leaves at once, with what it puts after itself. -/
theorem Execution.arrive_fineWith (all : ∀ address, m.Follows address) {e : Execution}
    {b arrived : Block} {threads : List Thread} {w v : World σ} {rest : List Duty}
    (fine : m.FineWith w (b.duties ++ rest))
    (arrives : Block.arrive services e.address b w = ⟨.ok true, (arrived, threads), v⟩) :
    m.FineWith (e.noteEntered arrived v) (arrived.duties ++ (blocksDuties b.pass ++ rest)) := by
  obtain ⟨others, fine⟩ := fine
  rw [List.append_assoc] at fine
  have branches : ∀ n, m.Follows (e.address ++ [n]) := fun _ => all _
  have arriving := Block.arrive_monitored branches
    (fun _ _ _ _ _ => Execution.enter_monitored _) fine
  rw [arrives] at arriving
  have entered : (Entry.entered e.address e.cursor arrived.shownText).IsNote m.Follows :=
    all e.address
  refine ⟨others, m.fewer (m.note entered arriving.1) fun d => ?_⟩
  simp only [List.count_append]
  omega

namespace Action

/-- The duties of what the operation works on. -/
def duties : Action → List Duty
  | .enter e | .dispatch _ _ e => e.duties
  | .startThreads pending started _ => threadsDuties pending ++ threadsDuties started
  | .complete _ others => threadsDuties others
  | .leave b ahead e => b.duties ++ (threadsDuties e.threads ++ (handleDuties e.handle ++
      (blocksDuties e.behind ++ blocksDuties ahead)))

/-- The threads of a group are started before it ends. -/
def Undone : Action → Prop
  | .startThreads _ _ join => join.done = false
  | _ => True

variable {a a' : Action} {t : Thread} {w w' v : World σ}

theorem Begins.undone (begins : Begins services a w a' w') (undone : a.Undone) : a'.Undone := by
  cases begins with
  | group => rfl
  | @others branch e e' rest started left join join' w v u entered finished counted =>
    have goes_on := join.complete_undone services undone (started ++ rest) v
    rw [counted] at goes_on
    exact (goes_on rfl).1
  | waits => exact undone
  | next | start | finishes | reacts | passes | counts | ends | onward => trivial

section

variable {e : Execution} {b : Block} {rest : List Block}

/-- The current block, with the duties of the threads and of the other blocks. -/
theorem here_duties (now : e.ahead = b :: rest) (fine : m.FineWith w e.duties) :
    m.FineWith w (b.duties ++ (threadsDuties e.threads ++ (handleDuties e.handle ++
      (blocksDuties e.behind ++ blocksDuties rest)))) := fine.fewer fun d => by
  simp only [Execution.duties_eq, now, blocksDuties_cons, List.count_append]
  omega

/-- The thread that an event passes to, with the duties of what is around it. -/
theorem passes_duties {branch : Nat} {join : Join} {before after : List Thread}
    (passes : e.Passes branch b rest join before t after) (fine : m.FineWith w e.duties) :
    m.FineWith w (t.execution.duties ++ (b.duties ++ (threadsDuties (before ++ after) ++
      (handleDuties e.handle ++ (blocksDuties e.behind ++ blocksDuties rest))))) :=
  (here_duties passes.now fine).fewer fun d => by
    simp only [(findThread_some passes.found).1, threadsDuties_append, threadsDuties_cons,
      List.count_append]
    omega

/-- The thread that is started next, with the duties of the others. -/
theorem starts_duties {branch : Nat} {pending started : List Thread} {join : Join}
    (fine : m.FineWith w (startThreads (⟨branch, e⟩ :: pending) started join).duties) :
    m.FineWith w (Execution.duties { e with started := true } ++
      (threadsDuties pending ++ threadsDuties started)) := fine.fewer fun d => by
  simp only [duties, threadsDuties_cons, Execution.duties_eq, List.count_append]
  omega

end

section

variable (all : ∀ address, m.Follows address)
include all

theorem Begins.fineWith (begins : Begins services a w a' w') (undone : a.Undone)
    (fine : m.FineWith w a.duties) : m.FineWith w' a'.duties := by
  cases begins with
  | @group e b rest handle join w v now registered activity some_branch =>
    obtain ⟨others, registering⟩ := Block.register_fineWith (here_duties now fine) registered
    have opened : m.FineWith (v.noteOpened join.branches) [] :=
      ⟨_, m.noteOpened join.branches registering⟩
    refine opened.fewer fun d => ?_
    simp only [duties, Join.threads, threadsDuties_threadsFrom, threadsDuties_nil, List.nil_append,
      Nat.le_refl]
  | @next e b arrived left rest handle threads w v u x now registered arrives leaves =>
    have registering := Block.register_fineWith (here_duties now fine) registered
    have arriving := Execution.arrive_fineWith all registering arrives
    refine Execution.advance_fineWith all (arriving.fewer fun d => ?_) leaves
    simp only [blocksDuties_append, List.count_append]
    omega
  | start => exact (starts_duties fine).part
  | finishes entered finished =>
    refine (Execution.enter_fineWith all (starts_duties fine) entered).fewer fun d => ?_
    simp only [duties, threadsDuties_append, List.count_append]
    omega
  | @others branch e e' rest started left join join' w v u entered finished counted =>
    have goes_on := join.complete_undone services undone (started ++ rest) v
    rw [counted] at goes_on
    obtain ⟨-, rfl⟩ := goes_on rfl
    have entering := Execution.enter_fineWith all (starts_duties fine) entered
    have regrouped : m.FineWith v (threadsDuties (started ++ rest) ++ []) :=
      entering.fewer fun d => by
        simp only [threadsDuties_append, List.count_append, List.count_nil]
        omega
    refine (Join.complete_fineWith all regrouped counted).fewer fun d => ?_
    simp only [duties, threadsDuties_append, List.count_append]
    omega
  | waits entered unfinished =>
    refine (Execution.enter_fineWith all (starts_duties fine) entered).fewer fun d => ?_
    simp only [duties, threadsDuties_append, threadsDuties_cons, threadsDuties_nil,
      List.count_append, List.count_nil]
    omega
  | @reacts event e b b' rest after w v running now reacted =>
    refine (Block.react_fineWith (here_duties now fine) reacted).fewer fun d => ?_
    simp only [duties, Reaction.after, blocksDuties_append, List.count_append]
    omega
  | passes passes => exact (passes_duties passes fine).part
  | counts passes delivered finished =>
    have delivering := Execution.dispatch_fineWith all (passes_duties passes fine) delivered
    refine delivering.fewer fun d => ?_
    simp only [duties, List.count_append]
    omega
  | @ends event branch path e x b rest join join' before after left t w v u passes delivered
      finished counted =>
    have delivering := Execution.dispatch_fineWith all (passes_duties passes fine) delivered
    have regrouped : m.FineWith v (threadsDuties (before ++ after) ++ (b.duties ++
        (handleDuties e.handle ++ (blocksDuties e.behind ++ blocksDuties rest)))) :=
      delivering.fewer fun d => by
        simp only [List.count_append]
        omega
    refine (Join.complete_fineWith all regrouped counted).fewer fun d => ?_
    simp only [duties, Block.duties, List.count_append]
    omega
  | @onward b left ahead e w v u cancelled leaves =>
    have regrouped : m.FineWith w (threadsDuties e.threads ++ (b.duties ++
        (handleDuties e.handle ++ (blocksDuties e.behind ++ blocksDuties ahead)))) :=
      fine.fewer fun d => by
        simp only [duties, List.count_append]
        omega
    exact Execution.advance_fineWith all (cancelThreads_fineWith all regrouped cancelled) leaves

/-- The monitor is fine when a thread is cancelled. -/
theorem Cancels.fineWith (cancels : Cancels services a w t v) (undone : a.Undone)
    (fine : m.FineWith w a.duties) : m.FineWith v t.execution.duties := by
  -- The threads before it have been cancelled, and it has its own duties still.
  have cancelled {first rest : List Thread} {t : Thread} {w v : World σ}
      (fine : m.FineWith w (threadsDuties (first ++ t :: rest)))
      (earlier : cancelThreads services first w = ⟨.ok (), (), v⟩) :
      m.FineWith v t.execution.duties := by
    rw [threadsDuties_append, threadsDuties_cons] at fine
    exact (cancelThreads_fineWith all fine earlier).part
  induction cancels with
  | joined enough earlier => exact cancelled fine earlier
  | @left b ahead e first rest t w v threads earlier =>
    have inside : m.FineWith w (threadsDuties e.threads) := fine.fewer fun d => by
      simp only [duties, List.count_append]
      omega
    rw [threads] at inside
    exact cancelled inside earlier
  | begun begins cancels ih => exact ih (begins.undone undone) (begins.fineWith all undone fine)
  | @inside a first rest t t' w v u cancels running threads earlier ih =>
    have inside : m.FineWith v (threadsDuties t.execution.threads) :=
      (ih undone fine).fewer fun d => by
        simp only [Execution.duties_eq, List.count_append]
        omega
    rw [threads] at inside
    exact cancelled inside earlier

/-- The monitor is fine when the operation has been answered. -/
theorem yields_fineWith (fine : m.FineWith w a.duties) :
    a.Yields services (fun e v => m.FineWith v e.duties) w := by
  have kept {o : Outcome σ Execution Unit} {others : List Duty} (keeps : m.KeepsExecution others o) :
      o.Yields fun _ e v => m.FineWith v e.duties :=
    Outcome.Ends.yields keeps fun _ _ _ fine => ⟨others, fine.1⟩
  obtain ⟨others, fine⟩ := fine
  cases a with
  | enter e => exact kept (e.enter_monitored w others (e.within_all all) fine)
  | leave b ahead e =>
    simp only [duties, List.append_assoc] at fine
    exact kept (Execution.leave_monitored (e.within_all all) fine)
  | dispatch event path e => exact kept (e.dispatch_monitored event path (e.within_all all) fine)
  | startThreads | complete => trivial

end

end Action

namespace Run

variable {r : Run σ} {call : Call} {a : Action} {w : World σ}

theorem Begins.fineWith (begins : r.Begins services call a w) (fine : m.Fine r.world r.root.duties) :
    m.FineWith w a.duties := by
  have fine : m.Fine r.world (r.root.duties ++ []) := by rwa [List.append_nil]
  cases begins with
  | @reminded reminder description id _ unstarted reminds described added =>
    have taken := m.added description reminder fine
    rw [added] at taken
    refine ⟨[], m.fewer taken fun d => ?_⟩
    rw [← List.singleton_append]
    simp only [Action.duties, Execution.duties_eq, handleDuties, Option.toList_some, List.map_cons,
      List.map_nil, List.count_append, List.count_nil]
    omega
  | unreminded unstarted none =>
    refine ⟨[], m.fewer fine fun d => ?_⟩
    simp only [Action.duties, Execution.duties_eq, Nat.le_refl]
  | event path event => exact ⟨[], fine⟩

/-- The monitor is fine at the beginning of each operation within a call. -/
theorem Performs.fineWith (all : ∀ address, m.Follows address)
    (performs : r.Performs services call a w) (fine : m.Fine r.world r.root.duties) :
    a.Undone ∧ m.FineWith w a.duties := by
  induction performs with
  | begins begins =>
    refine ⟨?_, begins.fineWith fine⟩
    cases begins with
    | reminded | unreminded | event => trivial
  | further performs begins ih =>
    obtain ⟨undone, fine⟩ := ih
    exact ⟨begins.undone undone, begins.fineWith all undone fine⟩

end Run

end Stepwise
