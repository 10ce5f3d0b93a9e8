import Stepwise.Run
import Stepwise.Proofs.Delivery
import Stepwise.Proofs.Monitor.Entering

/-!
# Monitoring calls

Whatever the state of a run, each call of the host that asks for something is followed by a monitor
from its start to its end. A condition hands its duty on to the branch that is chosen, and a loop
that goes on to its next pass.
-/

namespace Stepwise

variable {σ : Type} {services : Services σ} {m : Monitor services} {w : World σ}
  {others : List Duty}

namespace Block

/-- A reminder that is handed on is given back by the last of the blocks. -/
theorem handOn_duties (b : Block) (blocks : List Block) (d : Duty) :
    ((b.handOn blocks).1.duties ++ blocksDuties (b.handOn blocks).2).count d =
      (b.duties ++ blocksDuties blocks).count d := by
  unfold handOn
  split
  · next number last handle ends =>
    obtain ⟨front, rfl⟩ := List.getLast?_eq_some_iff.mp ends
    simp only [duties, handleDuties, handle, addHook, List.dropLast_concat, blocksDuties_append,
      blocksDuties_cons, blocksDuties_nil, List.map_cons, List.map_nil, LeaveHook.duty,
      Option.toList_none, Option.toList_some, List.count_append, List.count_cons, List.count_nil]
    omega
  · rfl

/-- A block that has reacted, with the duties of the blocks that come after it then. -/
def KeepsReaction (m : Monitor services) (others : List Duty) (o : Outcome σ Block Reaction) :
    Prop :=
  o.Ends (fun reaction b w => m.Fine w (b.duties ++ (blocksDuties reaction.after ++ others)))
    fun e b w => m.Failed e w (b.duties ++ others)

theorem choose_monitored (b : Block) (branch : List Template)
    (fine : m.Fine w (b.duties ++ others)) : KeepsReaction m others (b.choose branch w) := by
  rw [choose_eq]
  refine m.fewer (m.noteBuilt branch fine) fun d => ?_
  have same := b.handOn_duties (branch.map ofTemplate) d
  simp only [blocksDuties_ofTemplates, List.append_nil, List.count_append] at same
  simp only [Reaction.after, List.count_append]
  omega

theorem answer_monitored (b : Block) (loop : LoopKind) (body : List Template) (yes : Bool)
    (fine : m.Fine w (b.duties ++ others)) : KeepsReaction m others (b.answer loop body yes w) := by
  unfold answer
  split
  · refine m.fewer (m.noteBuilt body fine) fun d => ?_
    simp only [Reaction.after, blocksDuties_append, blocksDuties_ofTemplates, blocksDuties_cons,
      blocksDuties_nil, duties, handleDuties, successor, List.map_nil, Option.toList_none,
      List.count_append, List.count_nil]
    omega
  · exact fine

theorem react_monitored (b : Block) (event : Event) (fine : m.Fine w (b.duties ++ others)) :
    KeepsReaction m others (b.react services event w) := by
  unfold react
  split
  · exact fine
  · exact b.choose_monitored _ fine
  · exact b.choose_monitored _ fine
  · exact b.answer_monitored _ _ true fine
  · exact b.answer_monitored _ _ false fine
  · exact fine
  · exact fine
  · have forced : m.Takes (fun _ => b.duties ++ others) (b.duties ++ others)
        (w.forceFinish services) := m.asked .forceFinish fine
    exact forced.elim (fun _ _ fine => fine) fun _ _ failed => failed
  · exact m.note trivial fine

end Block

namespace Execution

variable {e : Execution} {b : Block} {rest : List Block}

theorem leave_monitored (inside : e.Within m.Follows) {ahead : List Block}
    (fine : m.Fine w (b.duties ++ (threadsDuties e.threads ++ (handleDuties e.handle ++
      (blocksDuties e.behind ++ (blocksDuties ahead ++ others)))))) :
    m.KeepsExecution others (e.leave services b ahead w) := by
  obtain ⟨address_inside, threads_inside⟩ := (within_iff e).mp inside
  have regrouped : m.Fine w (threadsDuties e.threads ++ (b.duties ++ (handleDuties e.handle ++
      (blocksDuties e.behind ++ (blocksDuties ahead ++ others))))) := m.fewer fine fun d => by
    simp only [List.count_append]
    omega
  refine (cancelThreads_monitored threads_inside regrouped).bind (fun error _ v failed => ?_)
    fun _ _ v fine => leave_monitored_of address_inside (fun left => enter_monitored _) fine
  refine ⟨m.failed_fewer failed fun d => ?_, address_inside, trivial⟩
  simp only [duties, blocksDuties_cons, threadsDuties_nil, List.count_append, List.count_nil]
  omega

/-- A thread `x` has taken an event, and now its group goes on. -/
theorem afterThread_monitored (now : e.ahead = b :: rest) (join : Join) {before after : List Thread}
    (t : Thread) {x : Execution} (inside : m.Follows e.address) (x_inside : x.Within m.Follows)
    (others_inside : allWithin m.Follows (before ++ after))
    (fine : m.Fine w (b.duties ++ (x.duties ++ (threadsDuties (before ++ after) ++
      (handleDuties e.handle ++ (blocksDuties e.behind ++ (blocksDuties rest ++ others))))))) :
    m.KeepsExecution others
      (e.afterThread services b rest join before after { t with execution := x } w) := by
  unfold afterThread
  split
  · have regrouped : m.Fine w (threadsDuties (before ++ after) ++ (b.duties ++
        (handleDuties e.handle ++ (blocksDuties e.behind ++ (blocksDuties rest ++ others))))) :=
      m.fewer fine fun d => by
        simp only [List.count_append]
        omega
    refine (join.complete_monitored others_inside regrouped).bind (fun error part v failed => ?_)
      fun ended part v fine => ?_
    · refine ⟨m.failed_fewer failed.1 fun d => ?_, inside, failed.2⟩
      simp only [duties, Block.duties, blocksDuties_cons, List.count_append]
      omega
    · obtain ⟨join, threads⟩ := part
      obtain ⟨fine, threads_inside⟩ := fine
      cases ended with
      | false =>
        simp only [Bool.false_eq_true, if_false]
        refine ⟨m.fewer fine fun d => ?_, inside, threads_inside⟩
        simp only [duties, Block.duties, blocksDuties_cons, List.count_append]
        omega
      | true =>
        have regrouped_inside : Within m.Follows ⟨{ e.toSequence with
            ahead := { b with activity := .parallel join } :: rest }, threads⟩ :=
          ⟨inside, threads_inside⟩
        refine leave_monitored regrouped_inside (m.fewer fine fun d => ?_)
        simp only [Block.duties, List.count_append]
        omega
  · obtain ⟨before_inside, after_inside⟩ := (allWithin_append _ _).mp others_inside
    refine ⟨m.fewer fine fun d => ?_, (within_iff _).mpr ⟨inside, (allWithin_append _ _).mpr
      ⟨before_inside, x_inside, after_inside⟩⟩⟩
    simp only [duties_eq, now, blocksDuties_cons, threadsDuties_append, threadsDuties_cons,
      List.count_append]
    omega

theorem dispatch_monitored (e : Execution) (event : Event) (path : List Nat)
    (inside : e.Within m.Follows) (fine : m.Fine w (e.duties ++ others)) :
    m.KeepsExecution others (e.dispatch services event path w) := by
  induction depth : path.length using Nat.strongRecOn generalizing path e others with
  | ind n ih =>
  subst depth
  refine dispatch_cases path (fun notice => ⟨m.note trivial fine, inside⟩) ?here ?thread
  case here =>
    intro b rest running now
    have regrouped : m.Fine w (b.duties ++ (threadsDuties e.threads ++ (handleDuties e.handle ++
        (blocksDuties e.behind ++ (blocksDuties rest ++ others))))) := m.fewer fine fun d => by
      simp only [duties_eq, now, blocksDuties_cons, List.count_append]
      omega
    refine (b.react_monitored event regrouped).bind (fun error b v failed => ?_)
      fun reaction b v fine => ?_
    · refine ⟨m.failed_fewer failed fun d => ?_, (within_iff _).mpr ((within_iff e).mp inside)⟩
      simp only [duties_eq, blocksDuties_cons, List.count_append]
      omega
    · cases reaction with
      | stay =>
        refine ⟨m.fewer fine fun d => ?_, (within_iff _).mpr ((within_iff e).mp inside)⟩
        simp only [duties_eq, Reaction.after, blocksDuties_cons, List.count_append]
        omega
      | leave after =>
        refine leave_monitored inside (m.fewer fine fun d => ?_)
        simp only [Reaction.after, blocksDuties_append, List.count_append]
        omega
  case thread =>
    intro b rest join before t after further running now group threads less
    obtain ⟨address_inside, threads_inside⟩ := (within_iff e).mp inside
    rw [threads, allWithin_append, allWithin_cons] at threads_inside
    obtain ⟨before_inside, t_inside, after_inside⟩ := threads_inside
    have regrouped : m.Fine w (t.execution.duties ++ (b.duties ++ (threadsDuties (before ++ after) ++
        (handleDuties e.handle ++ (blocksDuties e.behind ++ (blocksDuties rest ++ others)))))) :=
      m.fewer fine fun d => by
        simp only [duties_eq, now, threads, blocksDuties_cons, threadsDuties_append,
          threadsDuties_cons, List.count_append]
        omega
    refine (ih _ less t.execution further t_inside regrouped rfl).bind (fun error x v failed => ?_)
      fun _ x v fine => ?_
    · refine ⟨m.failed_fewer failed.1 fun d => ?_, (within_iff _).mpr ⟨address_inside,
        (allWithin_append _ _).mpr ⟨before_inside, failed.2, after_inside⟩⟩⟩
      simp only [duties_eq, now, blocksDuties_cons, threadsDuties_append, threadsDuties_cons,
        List.count_append]
      omega
    · refine afterThread_monitored now join t address_inside fine.2
        ((allWithin_append _ _).mpr ⟨before_inside, after_inside⟩) (m.fewer fine.1 fun d => ?_)
      simp only [List.count_append]
      omega

end Execution

namespace Run

/-- The monitor is fine with an answered call, and it has failed with the error that was the answer
to one that was refused. -/
def Followed {α : Type} (m : Monitor services) : Except RunError α × Run σ → Prop
  | (.ok _, r) => m.Fine r.world r.root.duties ∧ r.root.Within m.Follows
  | (.error (.service e), r) => m.Failed e r.world r.root.duties ∧ r.root.Within m.Follows
  | (.error .alreadyStarted, _) => False

variable {r : Run σ}

theorem followed_of_outcome {o : Outcome σ Execution Unit} (keeps : m.KeepsExecution [] o) :
    Followed m (ofOutcome o) := by
  obtain ⟨result, e, v⟩ := o
  unfold Monitor.KeepsExecution at keeps
  simp only [List.append_nil] at keeps
  cases result <;> exact keeps

theorem begin_monitored {e : Execution} (inside : e.Within m.Follows) (fine : m.Fine w e.duties) :
    m.KeepsExecution [] (begin services e w) := by
  have inside' : ∀ handle, Execution.Within m.Follows { e with started := true, handle } :=
    fun handle => (Execution.within_iff _).mpr ((Execution.within_iff e).mp inside)
  unfold begin
  simp only
  split
  · next reminder description _ _ =>
    refine (m.added description reminder fine).elim (fun id v added => ?_) fun error v failed => ?_
    · refine Execution.enter_monitored _ v [] (inside' (some id)) (m.fewer added fun d => ?_)
      rw [← List.singleton_append]
      simp only [Execution.duties_eq, handleDuties, Option.toList_some, List.map_cons, List.map_nil,
        List.append_nil, List.count_append]
      omega
    · refine ⟨m.failed_fewer failed fun d => ?_, inside' e.handle⟩
      simp only [Execution.duties_eq, List.append_nil, Nat.le_refl]
  · refine Execution.enter_monitored _ w [] (inside' e.handle) (m.fewer fine fun d => ?_)
    simp only [Execution.duties_eq, List.append_nil, Nat.le_refl]

theorem start_followed (unstarted : r.root.started = false) (inside : r.root.Within m.Follows)
    (fine : m.Fine r.world r.root.duties) : Followed m (r.start services) := by
  simp only [start, unstarted, Bool.false_eq_true, if_false]
  exact followed_of_outcome (begin_monitored inside fine)

theorem dispatch_followed (path : List Nat) (event : Event) (inside : r.root.Within m.Follows)
    (fine : m.Fine r.world r.root.duties) : Followed m (r.dispatch services path event) := by
  refine followed_of_outcome (r.root.dispatch_monitored event path inside ?_)
  rwa [List.append_nil]

theorem requestPause_followed (inside : r.root.Within m.Follows)
    (fine : m.Fine r.world r.root.duties) : Followed m (r.requestPause services) := by
  unfold requestPause
  exact (m.requestPause fine).elim (fun _ _ fine => ⟨fine, inside⟩)
    fun _ _ failed => ⟨failed, inside⟩

theorem releasePause_followed (token : Nat) (inside : r.root.Within m.Follows)
    (fine : m.Fine r.world r.root.duties) : Followed m (r.releasePause services token) := by
  unfold releasePause
  exact (m.releasePause token fine).elim (fun _ _ fine => ⟨fine, inside⟩)
    fun _ _ failed => ⟨failed, inside⟩

end Run

end Stepwise
