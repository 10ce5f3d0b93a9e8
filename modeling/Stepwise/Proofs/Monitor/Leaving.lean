import Stepwise.Execution.Cancelling
import Stepwise.Proofs.Monitor

/-!
# Monitoring what leaves

A block that leaves takes its duties off before it asks the host to do them, and keeps those that
are still to be done. What a cancelled thread had still to do when a request was refused is
forgotten with it.
-/

namespace Stepwise

variable {σ : Type} {services : Services σ} {m : Monitor services} {w : World σ}
  {duties others : List Duty}

theorem LeaveHook.run_monitored (hook : LeaveHook) (fine : m.Fine w (hook.duty :: duties)) :
    m.Takes (fun _ => duties) duties (hook.run services w) := by
  cases hook with
  | removeReminder id => exact m.asked (.removeReminder id) fine
  | custom name failure => exact m.asked (.hook name _) fine

theorem LeaveHook.runAll_monitored (hooks : List LeaveHook)
    (fine : m.Fine w (hooks.map duty ++ others)) :
    m.Keeps (fun hooks => hooks.map duty ++ others) (runAll services hooks w) := by
  induction hooks generalizing w with
  | nil => exact fine
  | cons hook rest ih =>
    unfold runAll
    exact (hook.run_monitored fine).elim (fun _ _ fine => ih fine) fun _ _ failed => failed

theorem Sleep.giveBackToken_monitored (s : Sleep) (fine : m.Fine w duties) :
    m.Keeps (fun _ => duties) (s.giveBackToken services w) := by
  unfold giveBackToken
  split
  · exact fine
  · next token _ =>
    exact (m.releasePause token fine).elim (fun _ _ fine => fine) fun _ _ failed => failed

theorem Sleep.release_monitored (s : Sleep) (fine : m.Fine w duties) :
    m.Keeps (fun _ => duties) (s.release services w) := by
  unfold release
  split
  · have cancelled : m.Takes (fun _ => duties) duties (w.cancelCountdown services s.route) :=
      m.asked (.cancelCountdown s.route) fine
    exact cancelled.elim
      (fun _ _ fine => giveBackToken_monitored { s with remaining := .zero } fine)
      fun _ _ failed => failed
  · exact s.giveBackToken_monitored fine

namespace Block

theorem wrapUp_monitored (b : Block) (fine : m.Fine w (b.duties ++ others)) :
    m.Keeps (fun b => b.duties ++ others) (b.wrapUp services w) := by
  unfold wrapUp
  split
  · exact fine
  · next s _ =>
    exact (s.release_monitored fine).within (fun _ _ _ failed => failed) fun _ _ _ fine => fine
  · exact fine

theorem unregister_monitored (b : Block) (fine : m.Fine w (b.duties ++ others)) :
    m.Keeps (fun b => b.duties ++ others) (b.unregister services w) := by
  obtain ⟨id, image, reminder, handle, hooks, text, activity⟩ := b
  cases handle with
  | none => exact fine
  | some number =>
    have removed : m.Takes (fun _ => hooks.map LeaveHook.duty ++ others)
        (hooks.map LeaveHook.duty ++ others) (w.removeReminder services number) :=
      m.asked (.removeReminder number) fine
    simp only [unregister]
    exact removed.elim (fun _ _ fine => fine) fun _ _ failed => failed

theorem runHooks_monitored (b : Block) (fine : m.Fine w (b.duties ++ others)) :
    m.Keeps (fun b => b.duties ++ others) (b.runHooks services w) := by
  have regrouped : m.Fine w (b.hooks.map LeaveHook.duty ++ (handleDuties b.handle ++ others)) :=
    m.fewer fine fun d => by
      simp only [duties, List.count_append]
      omega
  refine (LeaveHook.runAll_monitored b.hooks regrouped).within
    (fun e hooks v failed => m.failed_fewer failed fun d => ?_)
    fun _ hooks v fine => m.fewer fine fun d => ?_
  all_goals
    simp only [duties, List.count_append]
    omega

theorem discard_monitored (b : Block) (fine : m.Fine w (b.duties ++ others)) :
    m.Keeps (fun b => b.duties ++ others) (b.discard services w) :=
  (b.unregister_monitored fine).bind (fun _ _ _ failed => failed)
    fun _ b _ fine => b.runHooks_monitored fine

theorem leave_monitored (b : Block) (fine : m.Fine w (b.duties ++ others)) :
    m.Keeps (fun b => b.duties ++ others) (b.leave services w) :=
  (b.wrapUp_monitored fine).bind (fun _ _ _ failed => failed)
    fun _ b _ fine => b.discard_monitored fine

theorem register_monitored (b : Block) (fine : m.Fine w (b.duties ++ others)) :
    m.Takes (fun handle => ({ b with handle } : Block).duties ++ others) (b.duties ++ others)
      (b.register services w) := by
  unfold register
  split
  · next r _ none =>
    refine (m.added b.shownText r fine).elim (fun id v added => ?_) fun _ _ failed => failed
    refine m.fewer added fun d => ?_
    simp [duties, handleDuties, none]
  · exact fine

end Block

theorem discardAll_monitored (blocks : List Block)
    (fine : m.Fine w (blocksDuties blocks ++ others)) :
    m.Keeps (fun blocks => blocksDuties blocks ++ others) (discardAll services blocks w) := by
  induction blocks generalizing w others with
  | nil => exact fine
  | cons b rest ih =>
    rw [blocksDuties_cons, List.append_assoc] at fine
    refine (b.discard_monitored fine).bind
      (fun e b v failed => m.failed_fewer failed fun d => ?_) fun _ b v fine => ?_
    · simp only [blocksDuties_cons, List.append_assoc, Nat.le_refl]
    · have regrouped : m.Fine v (blocksDuties rest ++ (b.duties ++ others)) :=
        m.fewer fine fun d => by
          simp only [List.count_append]
          omega
      refine (ih regrouped).within (fun e blocks u failed => m.failed_fewer failed fun d => ?_)
        fun _ blocks u fine => m.fewer fine fun d => ?_
      all_goals
        simp only [blocksDuties_cons, List.count_append]
        omega

namespace Sequence

theorem unregister_monitored (s : Sequence) (fine : m.Fine w (handleDuties s.handle ++ others)) :
    (s.unregister services w).Ends
      (fun _ line w => line = { s with handle := none } ∧ m.Fine w others)
      fun e line w => line = { s with handle := none } ∧ m.Failed e w others := by
  obtain ⟨behind, ahead, started, finished, cancelled, description, reminder, handle, address,
    pause⟩ := s
  cases handle with
  | none => exact ⟨rfl, fine⟩
  | some number =>
    have removed : m.Takes (fun _ => others) others (w.removeReminder services number) :=
      m.asked (.removeReminder number) fine
    simp only [unregister]
    exact removed.elim (fun _ _ fine => ⟨rfl, fine⟩) fun _ _ failed => ⟨rfl, failed⟩

/-- A sequence that is given up has done what it had to do. -/
theorem giveUp_monitored (s : Sequence)
    (fine : m.Fine w (blocksDuties s.ahead ++ (handleDuties s.handle ++ others))) :
    m.Keeps (fun _ => others) (s.giveUp services w) := by
  refine (discardAll_monitored s.ahead fine).bind
    (fun e ahead v failed => m.failed_fewer failed fun d => ?_) fun _ ahead v fine => ?_
  · simp only [List.count_append]
    omega
  · have regrouped : m.Fine v (handleDuties s.handle ++ others) := m.fewer fine fun d => by
      simp only [List.count_append]
      omega
    exact (unregister_monitored { s with ahead } regrouped).mono
      (fun _ _ _ failed => failed.2) fun _ _ _ fine => fine.2

theorem halt_monitored (s : Sequence) (inside : m.Follows s.address)
    (fine : m.Fine w (blocksDuties s.ahead ++ (handleDuties s.handle ++ others))) :
    m.Keeps (fun _ => others) (s.halt services w) := by
  unfold halt
  split
  · exact s.giveUp_monitored fine
  · next b rest now =>
    rw [now, blocksDuties_cons, List.append_assoc] at fine
    refine (b.leave_monitored fine).bind
      (fun e b v failed => m.failed_fewer failed fun d => ?_) fun _ b v fine => ?_
    · simp only [List.count_append]
      omega
    · refine giveUp_monitored (s.advance b rest) (m.note inside (m.fewer fine fun d => ?_))
      simp only [advance, List.count_append]
      omega

end Sequence

mutual

theorem Execution.cancel_monitored : ∀ {e : Execution}, e.Within m.Follows →
    ∀ {w : World σ} {others : List Duty}, m.Fine w (e.duties ++ others) →
      m.Keeps (fun _ => others) (e.cancel services w)
  | ⟨line, threads⟩, inside, w, others, fine => by
    unfold Execution.cancel
    split
    · have regrouped : m.Fine w (threadsDuties threads ++
          (blocksDuties line.ahead ++ (handleDuties line.handle ++ others))) :=
        m.fewer fine fun d => by
          simp only [Execution.duties, List.count_append]
          omega
      refine (cancelThreads_monitored inside.2 regrouped).bind
        (fun e _ v failed => m.failed_fewer failed fun d => ?_) fun _ _ v fine => ?_
      · simp only [List.count_append]
        omega
      · exact (Sequence.halt_monitored { line with cancelled := true } inside.1 fine).within
          (fun _ _ _ failed => failed) fun _ _ _ fine => fine
    · refine m.fewer fine fun d => ?_
      simp only [List.count_append]
      omega

theorem cancelThreads_monitored : ∀ {threads : List Thread}, allWithin m.Follows threads →
    ∀ {w : World σ} {others : List Duty}, m.Fine w (threadsDuties threads ++ others) →
      m.Keeps (fun _ => others) (cancelThreads services threads w)
  | [], _, _, _, fine => fine
  | ⟨_, execution⟩ :: rest, inside, w, others, fine => by
    rw [threadsDuties, List.append_assoc] at fine
    refine (Execution.cancel_monitored inside.1 fine).bind
      (fun e _ v failed => m.failed_fewer failed fun d => ?_) fun _ _ v fine => ?_
    · simp only [List.count_append]
      omega
    · exact cancelThreads_monitored inside.2 fine

end

/-- The threads that are left of a group, with their duties. -/
def Monitor.KeepsThreads (m : Monitor services) (others : List Duty)
    (o : Outcome σ (Join × List Thread) Bool) : Prop :=
  o.Ends
    (fun _ part w => m.Fine w (threadsDuties part.2 ++ others) ∧ allWithin m.Follows part.2)
    fun e part w => m.Failed e w (threadsDuties part.2 ++ others) ∧ allWithin m.Follows part.2

theorem Join.complete_monitored (j : Join) {threads : List Thread}
    (inside : allWithin m.Follows threads) (fine : m.Fine w (threadsDuties threads ++ others)) :
    m.KeepsThreads others (j.complete services threads w) := by
  unfold complete
  simp only
  split
  · refine (cancelThreads_monitored inside fine).bind
      (fun e _ v failed => ⟨failed, trivial⟩) fun _ _ v fine => ?_
    split
    · exact ⟨fine, trivial⟩
    · exact ⟨fine, trivial⟩
  · exact ⟨fine, inside⟩

/-- A group that is still open goes on with the threads that it has. -/
theorem Join.complete_undone (services : Services σ) {j : Join} (undone : j.done = false)
    (threads : List Thread) (w : World σ) :
    (j.complete services threads w).Ends
      (fun ended part _ => ended = false → part.1.done = false ∧ part.2 = threads)
      fun _ _ _ => True := by
  unfold complete
  simp only [undone]
  split
  · generalize cancelThreads services threads w = o
    obtain ⟨answer, -, v⟩ := o
    cases answer with
    | ok _ => exact nofun
    | error e => trivial
  · exact fun _ => ⟨rfl, rfl⟩

end Stepwise
