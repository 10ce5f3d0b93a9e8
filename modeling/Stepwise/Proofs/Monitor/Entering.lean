import Stepwise.Proofs.Entering
import Stepwise.Proofs.Monitor.Leaving

/-!
# Monitoring what is entered

A reminder that is started is a new duty of its block. A counted loop hands that duty on to its next
pass, and new blocks and threads have none.
-/

namespace Stepwise

variable {σ : Type}

theorem Block.duties_ofTemplate (t : Template) : (ofTemplate t).duties = [] := by
  rw [duties, handle_ofTemplate, hooks_ofTemplate]
  rfl

@[simp]
theorem blocksDuties_ofTemplates (ts : List Template) :
    blocksDuties (ts.map Block.ofTemplate) = [] := by
  refine List.flatMap_eq_nil_iff.mpr fun b mem => ?_
  obtain ⟨t, -, rfl⟩ := List.mem_map.mp mem
  exact Block.duties_ofTemplate t

@[simp]
theorem threadsDuties_threadsFrom (address : List Nat) (first : Nat)
    (branches : List (List Template)) : threadsDuties (threadsFrom address first branches) = [] := by
  induction branches generalizing first with
  | nil => rfl
  | cons templates rest ih =>
    rw [threadsFrom, threadsDuties_cons, ih, Execution.duties_eq]
    simp [Execution.fresh, Sequence.fresh, handleDuties]

theorem duties_startedThread (address : List Nat) (templates : List Template) :
    (startedThread address templates).duties = [] := by
  rw [Execution.duties_eq]
  simp [startedThread, Execution.fresh, Sequence.fresh, handleDuties]

variable {services : Services σ} {m : Monitor services} {w : World σ} {others : List Duty}

/-- What is left of an execution, with its duties. -/
def Monitor.KeepsExecution (m : Monitor services) (others : List Duty)
    (o : Outcome σ Execution Unit) : Prop :=
  o.Ends (fun _ e w => m.Fine w (e.duties ++ others) ∧ e.Within m.Follows)
    fun error e w => m.Failed error w (e.duties ++ others) ∧ e.Within m.Follows

/-- Entering the execution keeps the monitor's account of it. -/
def Execution.EntersMonitored (m : Monitor services) (e : Execution) : Prop :=
  ∀ (w : World σ) (others : List Duty), e.Within m.Follows → m.Fine w (e.duties ++ others) →
    m.KeepsExecution others (e.enter services w)

theorem Sleep.start_monitored (s : Sleep) (address : List Nat) (fine : m.Fine w others) :
    m.Keeps (fun _ => others) (s.start services address w) := by
  have countdown : ∀ v : World σ, m.Fine v others → m.Takes (fun _ => others) others
      (v.startCountdown services s.value s.unit address) := fun v fine =>
    m.asked (.startCountdown s.value s.unit address) fine
  unfold start
  by_cases silent : s.silent
  · simp only [silent, if_true]
    refine (m.requestPause fine).elim (fun token v fine => ?_) fun _ _ failed => failed
    simp only
    exact (countdown v fine).elim (fun _ _ fine => fine) fun _ _ failed => failed
  · simp only [silent]
    exact (countdown w fine).elim (fun _ _ fine => fine) fun _ _ failed => failed

theorem startThreads_monitored {branches : List (List Template)}
    (enters : ∀ templates ∈ branches, ∀ address, (startedThread address templates).EntersMonitored m)
    {address : List Nat} (inside : ∀ n, m.Follows (address ++ [n])) (first : Nat)
    {started : List Thread} {join : Join} (undone : join.done = false)
    (started_inside : allWithin m.Follows started)
    (fine : m.Fine w (threadsDuties started ++ others)) :
    m.KeepsThreads others
      (startThreads services (threadsFrom address first branches) started join w) := by
  induction branches generalizing first started join w with
  | nil =>
    rw [threadsFrom, startThreads]
    exact ⟨fine, started_inside⟩
  | cons templates rest ih =>
    have rest_enters := fun ts mem => enters ts (List.mem_cons_of_mem templates mem)
    have rest_inside : allWithin m.Follows (threadsFrom address (first + 1) rest) :=
      allWithin_threadsFrom inside (first + 1) rest
    have entered := enters templates List.mem_cons_self (address ++ [first]) w
      (threadsDuties started ++ others) ⟨inside first, trivial⟩
      (by rwa [duties_startedThread, List.nil_append])
    rw [startThreads_next]
    refine entered.bind (fun error e v failed => ?_) fun _ e v fine => ?_
    · refine ⟨m.failed_fewer failed.1 fun d => ?_, ?_⟩
      · simp only [threadsDuties_append, threadsDuties_cons, threadsDuties_threadsFrom,
          List.append_nil, List.count_append]
        omega
      · exact (allWithin_append _ _).mpr ⟨started_inside, failed.2, rest_inside⟩
    · obtain ⟨fine, e_inside⟩ := fine
      split
      · have others_fine :
            m.Fine v (threadsDuties (started ++ threadsFrom address (first + 1) rest) ++ others) :=
          m.fewer fine fun d => by
            simp only [threadsDuties_append, threadsDuties_threadsFrom, List.append_nil,
              List.count_append]
            omega
        refine ((join.complete_monitored ((allWithin_append _ _).mpr ⟨started_inside, rest_inside⟩)
          others_fine).and (join.complete_undone services undone _ v)).bind
          (fun _ _ _ failed => failed.1) fun ended part u fine => ?_
        obtain ⟨counted, left⟩ := part
        obtain ⟨⟨fine_u, left_inside⟩, goes_on⟩ := fine
        cases ended with
        | true => exact ⟨fine_u, left_inside⟩
        | false =>
          obtain ⟨undone', rfl⟩ := goes_on rfl
          simp only [threadsDuties_append, threadsDuties_threadsFrom, List.append_nil] at fine_u
          exact ih rest_enters (first + 1) undone' started_inside fine_u
      · refine ih rest_enters (first + 1) undone ((allWithin_append _ _).mpr
          ⟨started_inside, e_inside, trivial⟩) (m.fewer fine fun d => ?_)
        simp only [threadsDuties_append, threadsDuties_cons, threadsDuties_nil, List.append_nil,
          List.count_append]
        omega

/-- A block that has arrived, with the duties of its threads and of the blocks that it puts after
itself. -/
theorem Block.arrive_monitored {address : List Nat} (inside : ∀ n, m.Follows (address ++ [n]))
    {b : Block}
    (enters : ∀ join, b.activity = .parallel join → ∀ templates ∈ join.branches, ∀ address,
      (startedThread address templates).EntersMonitored m)
    (fine : m.Fine w (b.duties ++ others)) :
    (Block.arrive services address b w).Ends
      (fun _ part w => m.Fine w (part.1.duties ++
        (threadsDuties part.2 ++ (blocksDuties b.pass ++ others))) ∧ allWithin m.Follows part.2)
      fun e part w => m.Failed e w (part.1.duties ++ (threadsDuties part.2 ++ others)) ∧
        allWithin m.Follows part.2 := by
  cases activity : b.activity with
  | task | condition | asked =>
    rw [Block.arrive, activity]
    refine ⟨?_, trivial⟩
    simp only [pass, activity]
    exact fine
  | counted remaining entered body =>
    rw [Block.arrive_counted services address w activity]
    split
    · next more =>
      refine ⟨m.noteBuilt body (m.fewer fine fun d => ?_), trivial⟩
      simp only [pass, activity, more, if_true, blocksDuties_append, blocksDuties_ofTemplates,
        blocksDuties_cons, blocksDuties_nil, threadsDuties_nil, duties, successor, handleDuties,
        List.map_nil, Option.toList_none, List.count_append, List.count_nil]
      omega
    · next spent =>
      refine ⟨?_, trivial⟩
      simp only [pass, activity, spent, if_false]
      exact fine
  | sleep s =>
    have no_pass : b.pass = [] := by simp only [pass, activity]
    rw [no_pass]
    by_cases positive : 0 < s.value
    · rw [Block.arrive, activity]
      simp only [positive, if_true]
      refine ((s.start_monitored address fine).bind (fun _ _ _ failed => failed)
        fun _ _ _ fine => ?_).within (fun _ _ _ failed => ⟨failed, trivial⟩)
          fun _ _ _ fine => ⟨fine, trivial⟩
      exact fine
    · rw [Block.arrive_elapsed services address w activity positive]
      exact ⟨fine, trivial⟩
  | parallel join =>
    have no_pass : b.pass = [] := by simp only [pass, activity]
    rw [no_pass]
    by_cases none : join.branches = []
    · rw [Block.arrive_branchless services address w activity none]
      exact ⟨fine, trivial⟩
    · rw [Block.arrive_group services address w activity none]
      have opened : m.Fine (w.noteOpened join.branches) (threadsDuties [] ++ (b.duties ++ others)) :=
        m.noteOpened join.branches fine
      have none_started : allWithin m.Follows [] := trivial
      refine (startThreads_monitored (enters join activity) inside 0 rfl none_started opened).within
        (fun e part v failed => ⟨m.failed_fewer failed.1 fun d => ?_, failed.2⟩)
        fun _ part v fine => ⟨m.fewer fine.1 fun d => ?_, fine.2⟩
      all_goals
        simp only [duties, blocksDuties_nil, List.count_append, List.count_nil]
        omega

namespace Sequence

theorem finish_monitored (s : Sequence) (inside : m.Follows s.address)
    (fine : m.Fine w (handleDuties s.handle ++ others)) :
    (s.finish services w).Ends
      (fun _ line w => ∃ handle, line = { s with finished := true, handle } ∧
        m.Fine w (handleDuties handle ++ others))
      fun e line w => ∃ handle, line = { s with finished := true, handle } ∧
        m.Failed e w (handleDuties handle ++ others) := by
  unfold finish
  split
  · next finished => exact ⟨s.handle, by rw [← finished], fine⟩
  · refine (unregister_monitored { s with finished := true } fine).bind
      (fun e line v failed => ⟨none, failed.1, failed.2⟩) fun _ line v fine => ?_
    obtain ⟨rfl, fine⟩ := fine
    exact ⟨none, rfl, m.note inside fine⟩

end Sequence

namespace Execution

variable {e : Execution} {b : Block} {rest : List Block}

/-- The current block leaves, and the blocks ahead are entered. -/
theorem leave_monitored_of (inside : m.Follows e.address) {ahead : List Block}
    (goes_on : ∀ left, EntersMonitored m ⟨e.advance left ahead, []⟩)
    (fine : m.Fine w (b.duties ++ (handleDuties e.handle ++
      (blocksDuties e.behind ++ (blocksDuties ahead ++ others))))) :
    m.KeepsExecution others ((b.leave services w).bind
      (fun left => (⟨{ e.toSequence with ahead := left :: ahead }, []⟩ : Execution))
      fun _ left w => Execution.enter services ⟨e.advance left ahead, []⟩ (e.noteLeft left w)) := by
  refine (b.leave_monitored fine).bind (fun error left v failed => ?_) fun _ left v fine => ?_
  · refine ⟨m.failed_fewer failed fun d => ?_, inside, trivial⟩
    simp only [duties, blocksDuties_cons, threadsDuties_nil, List.count_append, List.count_nil]
    omega
  · refine goes_on left _ others ⟨inside, trivial⟩ (m.note inside (m.fewer fine fun d => ?_))
    simp only [duties, Sequence.advance, blocksDuties_cons, threadsDuties_nil, List.count_append,
      List.count_nil]
    omega

theorem enter_monitored (e : Execution) : e.EntersMonitored m := by
  induction e using enter_induction with
  | nil e now =>
    intro w others inside fine
    have inside := ((within_iff e).mp inside).1
    have regrouped : m.Fine w (handleDuties e.handle ++ (blocksDuties e.behind ++ others)) :=
      m.fewer fine fun d => by
        simp only [duties_eq, List.count_append]
        omega
    have left_over : ∀ (handle : Option Nat) d,
        (duties ⟨{ e.toSequence with finished := true, handle }, []⟩ ++ others).count d =
          (handleDuties handle ++ (blocksDuties e.behind ++ others)).count d := by
      intro handle d
      simp only [duties, now, blocksDuties_nil, threadsDuties_nil, List.append_nil,
        List.append_assoc]
    rw [enter_end services w now]
    refine (e.toSequence.finish_monitored inside regrouped).within
      (fun error line v failed => ?_) fun _ line v fine => ?_
    · obtain ⟨handle, rfl, failed⟩ := failed
      exact ⟨m.failed_fewer failed fun d => Nat.le_of_eq (left_over handle d), inside, trivial⟩
    · obtain ⟨handle, rfl, fine⟩ := fine
      exact ⟨m.fewer fine fun d => Nat.le_of_eq (left_over handle d), inside, trivial⟩
  | cons e b rest now goes_on starts =>
    intro w others inside fine
    have address_inside := ((within_iff e).mp inside).1
    have regrouped : m.Fine w (b.duties ++ (threadsDuties e.threads ++ (handleDuties e.handle ++
        (blocksDuties e.behind ++ (blocksDuties rest ++ others))))) :=
      m.fewer fine fun d => by
        simp only [duties_eq, now, blocksDuties_cons, List.count_append]
        omega
    have registering := b.register_monitored regrouped
    rcases registered : b.register services w with ⟨answer, v⟩
    rw [registered] at registering
    cases answer with
    | error error =>
      rw [enter_refused services now registered]
      refine ⟨m.failed_fewer registering fun d => ?_, inside⟩
      simp only [duties_eq, now, blocksDuties_cons, List.count_append]
      omega
    | ok handle =>
      rw [enter_block services now registered]
      refine (Block.arrive_monitored (b := { b with handle }) (m.branch address_inside) starts
        registering).bind (fun error part u failed => ?_) fun leaves part u fine => ?_
      · obtain ⟨arrived, threads⟩ := part
        refine ⟨m.failed_fewer failed.1 fun d => ?_, address_inside, failed.2⟩
        simp only [duties, blocksDuties_cons, List.count_append]
        omega
      · obtain ⟨arrived, threads⟩ := part
        obtain ⟨fine, threads_inside⟩ := fine
        cases leaves with
        | false =>
          simp only [Bool.false_eq_true, if_false]
          refine ⟨m.note address_inside (m.fewer fine fun d => ?_), address_inside, threads_inside⟩
          simp only [duties, blocksDuties_cons, List.count_append]
          omega
        | true =>
          refine leave_monitored_of address_inside (fun left => goes_on left handle)
            (m.note address_inside (m.fewer fine fun d => ?_))
          simp only [blocksDuties_append, List.count_append]
          omega

end Execution

end Stepwise
