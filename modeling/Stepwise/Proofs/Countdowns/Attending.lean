import Stepwise.Proofs.Countdowns.Boards
import Stepwise.Proofs.Countdowns.Routes
import Stepwise.Proofs.History
import Stepwise.Proofs.Lengths

/-!
# Waits that attend to the countdown

A wait attends to the countdown that it set while it is the current block of a running sequence and
seconds remain by its own count. A thread that is cancelled stops the countdown that it attends to,
and a sequence that is entered attends to each countdown that is set for its place on the way.
-/

namespace Stepwise

/-- The current block is a wait that made this setting, and seconds remain by its own count. -/
def Sequence.Counts (m : Setting) (line : Sequence) : Prop :=
  ∃ b s, line.current? = some b ∧ b.activity = .sleep s ∧ s.isRunning = true ∧
    s.route = line.address ∧ m = ⟨s.value, s.unit, line.address, line.cursor⟩

mutual

/-- A running wait of the tree made the setting and still counts. -/
def Execution.Attends (m : Setting) : Execution → Prop
  | ⟨line, threads⟩ => line.isRunning = true ∧ (line.Counts m ∨ anyAttends m threads)

def anyAttends (m : Setting) : List Thread → Prop
  | [] => False
  | ⟨_, execution⟩ :: rest => execution.Attends m ∨ anyAttends m rest

end

section Attending

variable {m : Setting}

theorem anyAttends_cons (t : Thread) (rest : List Thread) :
    anyAttends m (t :: rest) ↔ t.execution.Attends m ∨ anyAttends m rest := by
  obtain ⟨branch, execution⟩ := t
  rw [anyAttends]

theorem anyAttends_iff (threads : List Thread) :
    anyAttends m threads ↔ ∃ t ∈ threads, t.execution.Attends m := by
  induction threads with
  | nil => simp [anyAttends]
  | cons t rest ih => simp [anyAttends_cons, ih]

theorem anyAttends_append (first second : List Thread) :
    anyAttends m (first ++ second) ↔ anyAttends m first ∨ anyAttends m second := by
  simp only [anyAttends_iff, List.mem_append, or_and_right, exists_or]

namespace Execution

variable {e : Execution}

theorem attends_iff : e.Attends m ↔
    e.isRunning = true ∧ (e.toSequence.Counts m ∨ anyAttends m e.threads) := by
  obtain ⟨line, threads⟩ := e
  rw [Attends]

theorem Attends.unfinished (attends : e.Attends m) : e.finished = false :=
  Sequence.unfinished_of_running (attends_iff.mp attends).1

/-- What attends to a countdown is below the sequence that it is in. -/
theorem Addressed.attends_inside (addressed : e.Addressed) (attends : e.Attends m) :
    e.address <+: m.route := by
  induction addressed with
  | intro _ address _ ih =>
    obtain ⟨-, ⟨b, s, -, -, -, -, rfl⟩ | inside⟩ := attends_iff.mp attends
    · exact List.prefix_refl _
    · obtain ⟨t, mem, attends_t⟩ := (anyAttends_iff _).mp inside
      have below := ih t mem attends_t
      rw [address t mem] at below
      exact (List.prefix_append _ _).trans below

end Execution

theorem Numbered.attends_inside {address : List Nat} {threads : List Thread}
    (numbered : Numbered address threads) (attends : anyAttends m threads) :
    ∃ t ∈ threads, address ++ [t.branch] <+: m.route := by
  obtain ⟨t, mem, attends_t⟩ := (anyAttends_iff threads).mp attends
  have below := (numbered.inside t mem).attends_inside attends_t
  rw [numbered.address t mem] at below
  exact ⟨t, mem, below⟩

/-- A group itself has no countdown. -/
theorem Numbered.attends_below {address : List Nat} {threads : List Thread}
    (numbered : Numbered address threads) (attends : anyAttends m threads) : m.route ≠ address := by
  obtain ⟨t, -, below⟩ := numbered.attends_inside attends
  rintro rfl
  have longer := below.length_le
  simp only [List.length_append, List.length_singleton] at longer
  omega

end Attending

namespace Monitor

variable {w : World InMemory}

theorem fine_ofBoard (w : World InMemory) (duties : List Duty) : (ofBoard w).Fine w duties :=
  .refl w

theorem Keeps.replays {τ α : Type} {duties : τ → List Duty} {o : Outcome InMemory τ α}
    (kept : (ofBoard w).Keeps duties o) : w.Replays o.world := by
  have both : o.Ends (fun _ _ v => w.Replays v) fun _ _ v => w.Replays v := kept
  exact Outcome.Ends.left (P := fun _ v => w.Replays v) both

end Monitor

open Monitor (fine_ofBoard)

/-- There is no address in it. -/
abbrev Nowhere (_path : List Nat) : Prop := False

section Changes

variable {place : List Nat → Prop} (w : World InMemory)

theorem Sleep.giveBackToken_changes (s : Sleep) :
    w.Changes Nowhere Nowhere (s.giveBackToken InMemory.services w).world :=
  .of_parting (s.giveBackToken_adds w) (s.giveBackToken_monitored (fine_ofBoard w [])).replays

namespace Block

theorem discard_changes (b : Block) :
    w.Changes Nowhere Nowhere (b.discard InMemory.services w).world :=
  .of_parting (b.discard_adds w) (b.discard_monitored (fine_ofBoard w (b.duties ++ []))).replays

theorem leave_changes (b : Block) :
    w.Changes Nowhere Nowhere (b.leave InMemory.services w).world :=
  .of_parting (b.leave_adds w) (b.leave_monitored (fine_ofBoard w (b.duties ++ []))).replays

theorem register_changes (b : Block) :
    w.Changes Nowhere Nowhere (b.register InMemory.services w).2 := by
  have adds : Adds (Entry.IsProgress Nowhere True) w.journal
      (b.register InMemory.services w).2.journal := b.register_adds w
  have kept := b.register_monitored (fine_ofBoard w (b.duties ++ []))
  exact .of_progress adds (Answered.world (P := w.Replays) kept)

end Block

theorem World.noteBuilt_changes (templates : List Template) :
    w.Changes Nowhere Nowhere (w.noteBuilt templates) := by
  have adds : Adds (Entry.IsProgress Nowhere True) w.journal (w.noteBuilt templates).journal :=
    w.noteBuilt_adds templates
  exact .of_progress adds (Monitor.noteBuilt templates (fine_ofBoard w []))

theorem World.noteOpened_changes (branches : List (List Template)) :
    w.Changes Nowhere Nowhere (w.noteOpened branches) := by
  have adds : Adds (Entry.IsProgress Nowhere True) w.journal (w.noteOpened branches).journal :=
    w.noteOpened_adds branches
  exact .of_progress adds (Monitor.noteOpened branches (fine_ofBoard w []))

namespace Sequence

theorem noteLeft_changes (line : Sequence) (b : Block) :
    w.Changes Nowhere (· = line.address) (line.noteLeft b w) := by
  have here : (Entry.left line.address line.cursor b.shownText).IsNote (· = line.address) := rfl
  exact .note here w

theorem noteEntered_changes (line : Sequence) (b : Block) :
    w.Changes Nowhere (· = line.address) (line.noteEntered b w) := by
  have here : (Entry.entered line.address line.cursor b.shownText).IsNote (· = line.address) := rfl
  exact .note here w

theorem unregister_changes (line : Sequence) :
    w.Changes Nowhere Nowhere (line.unregister InMemory.services w).world := by
  have kept := line.unregister_monitored (fine_ofBoard w (handleDuties line.handle ++ []))
  have replays := (kept.mono (fun _ _ _ => And.right) fun _ _ _ => And.right).left
  exact .of_parting (line.unregister_adds w) replays

theorem giveUp_changes (line : Sequence) :
    w.Changes Nowhere Nowhere (line.giveUp InMemory.services w).world :=
  .of_parting (line.giveUp_adds w) (line.giveUp_monitored (fine_ofBoard w
    (blocksDuties line.ahead ++ (handleDuties line.handle ++ [])))).replays

theorem halt_changes {line : Sequence} (inside : place line.address) :
    w.Changes Nowhere place (line.halt InMemory.services w).world :=
  .of_parting (halt_adds inside w) (line.halt_monitored trivial (fine_ofBoard w
    (blocksDuties line.ahead ++ (handleDuties line.handle ++ [])))).replays

end Sequence

theorem cancelThreads_changes {threads : List Thread} (inside : allWithin place threads) :
    w.Changes Nowhere place (cancelThreads InMemory.services threads w).world :=
  .of_parting (cancelThreads_adds inside w) (cancelThreads_monitored
    (allWithin_all (fun _ => trivial) threads) (fine_ofBoard w (threadsDuties threads ++ []))).replays

theorem Execution.enter_changes (branch : ∀ {address}, place address → ∀ n, place (address ++ [n]))
    {e : Execution} (inside : e.Within place) :
    w.Changes place place (e.enter InMemory.services w).world := by
  have kept := enter_monitored e w [] (e.within_all fun _ => trivial)
    (fine_ofBoard w (e.duties ++ []))
  have replays := (kept.mono (fun _ _ _ => And.left) fun _ _ _ => And.left).left
  exact .of_progress (enter_adds branch e inside w) replays

end Changes

section Cancelling

variable {m : Setting} (w : World InMemory)

theorem World.cancelCountdown_stops (path : List Nat) :
    Answered (fun _ v => v.Stopped path) (fun _ _ => True)
      (w.cancelCountdown InMemory.services path) := by
  simp only [cancelCountdown, ask, InMemory.services, InMemory.onCountdown, CountdownBoard.cancel,
    CountdownBoard.answer]
  by_cases failing : w.host.countdown.failing
  · simp only [failing, if_true]
    trivial
  · simp only [failing]
    intro c running
    obtain ⟨-, other⟩ := Option.filter_eq_some_iff.mp running
    exact of_decide_eq_true other

theorem Sleep.release_stops {s : Sleep} (counting : s.isRunning = true) :
    (s.release InMemory.services w).Yields fun _ _ v => v.Stopped s.route := by
  unfold release
  rw [if_pos counting]
  refine (w.cancelCountdown_stops s.route).elim (fun _ v stopped => ?_) fun _ _ _ => trivial
  have later := stopped.later (giveBackToken_changes v { s with remaining := .zero })
  exact .of_world later trivial

theorem Block.leave_stops {b : Block} {s : Sleep} (asleep : b.activity = .sleep s)
    (counting : s.isRunning = true) :
    (b.leave InMemory.services w).Yields fun _ _ v => v.Stopped s.route := by
  have ended : (b.wrapUp InMemory.services w).Yields fun _ _ v => v.Stopped s.route := by
    simp only [wrapUp, asleep]
    exact (Sleep.release_stops w counting).within_yields fun _ _ _ stopped => stopped
  refine ended.bind_yields fun _ b v stopped => ?_
  exact .of_world (stopped.later (b.discard_changes v)) trivial

theorem Sequence.halt_stops {line : Sequence} (counts : line.Counts m) :
    (line.halt InMemory.services w).Yields fun _ _ v => v.Stopped m.route := by
  obtain ⟨b, s, now, asleep, counting, here, rfl⟩ := counts
  obtain ⟨rest, ahead⟩ := List.head?_eq_some_iff.mp now
  have left := Block.leave_stops w asleep counting
  rw [here] at left
  simp only [halt, ahead]
  refine left.bind_yields fun _ b v stopped => ?_
  have noted := stopped.later (line.noteLeft_changes v b)
  exact .of_world (noted.later (giveUp_changes _ _)) trivial

mutual

/-- A countdown that a cancelled thread attended to no longer runs. -/
theorem Execution.cancel_stops : ∀ {e : Execution}, e.Attends m → ∀ w : World InMemory,
    (e.cancel InMemory.services w).Yields fun _ _ v => v.Stopped m.route
  | ⟨line, threads⟩, attends, w => by
    obtain ⟨running, counts | inside⟩ := attends
    · have counts_on : Sequence.Counts m { line with cancelled := true } := counts
      rw [Execution.cancel, if_pos running]
      have any : (cancelThreads InMemory.services threads w).Ends (fun _ _ _ => True)
          fun _ _ _ => True := .of_world trivial trivial
      exact any.bind_yields fun _ _ v _ =>
        (Sequence.halt_stops v counts_on).within_yields fun _ _ _ stopped => stopped
    · rw [Execution.cancel, if_pos running]
      refine (cancelThreads_stops inside w).bind_yields fun _ _ v stopped => ?_
      have halted : v.Changes Nowhere (fun _ => True)
          ({ line with cancelled := true }.halt InMemory.services v).world :=
        Sequence.halt_changes v trivial
      exact .of_world (stopped.later halted) trivial

theorem cancelThreads_stops : ∀ {threads : List Thread}, anyAttends m threads →
    ∀ w : World InMemory,
      (cancelThreads InMemory.services threads w).Yields fun _ _ v => v.Stopped m.route
  | ⟨_, execution⟩ :: rest, attends, w => by
    rw [cancelThreads]
    rcases attends with here | there
    · refine (Execution.cancel_stops here w).bind_yields fun _ _ v stopped => ?_
      have cancelled : v.Changes Nowhere (fun _ => True)
          (cancelThreads InMemory.services rest v).world :=
        cancelThreads_changes v (allWithin_all (fun _ => trivial) rest)
      exact .of_world (stopped.later cancelled) trivial
    · have any : (execution.cancel InMemory.services w).Ends (fun _ _ _ => True)
          fun _ _ _ => True := .of_world trivial trivial
      exact any.bind_yields fun _ _ v _ => cancelThreads_stops there v

end

end Cancelling

end Stepwise
