import Stepwise.Proofs.Custody

/-!
# Giving back what is held

A block that leaves and is answered has given back all that it held. If it is refused it keeps what
it has not asked for yet, and if no callback was to blame then the host has refused to take
something back. What a cancelled thread holds is gone with it, which loses something only in that
case.
-/

namespace Stepwise

variable {σ : Type}

def LeaveHook.holdings (hooks : List LeaveHook) : List Holding :=
  (hooks.flatMap LeaveHook.held).map .reminder

def Sleep.holdings (s : Sleep) : List Holding := s.token.toList.map .token

/-- The reminders of a block and, if it is a wait, its token. -/
def Block.holdings (b : Block) : List Holding :=
  b.held.map .reminder ++ b.tokens.map .token

/-- The reminders of an execution and the tokens of its current waits. -/
def Execution.holdings (e : Execution) : List Holding :=
  e.held.map .reminder ++ e.sleepTokens.map .token

def threadsHoldings (threads : List Thread) : List Holding :=
  (threadsHeld threads).map .reminder ++ (threadsTokens threads).map .token

@[simp]
theorem threadsHoldings_nil : threadsHoldings [] = [] := by
  rw [threadsHoldings, threadsHeld_nil, threadsTokens_nil]
  rfl

theorem count_threadsHoldings_append (first second : List Thread) (h : Holding) :
    (threadsHoldings (first ++ second)).count h =
      (threadsHoldings first).count h + (threadsHoldings second).count h := by
  simp only [threadsHoldings, threadsHeld_append, threadsTokens_append, List.map_append,
    List.count_append]
  omega

theorem count_threadsHoldings_cons (t : Thread) (rest : List Thread) (h : Holding) :
    (threadsHoldings (t :: rest)).count h =
      t.execution.holdings.count h + (threadsHoldings rest).count h := by
  simp only [threadsHoldings, Execution.holdings, threadsHeld_cons, threadsTokens_cons,
    List.map_append, List.count_append]
  omega

theorem count_threadsHoldings_le {fewer threads : List Thread} (sub : fewer.Sublist threads)
    (h : Holding) : (threadsHoldings fewer).count h ≤ (threadsHoldings threads).count h := by
  induction sub with
  | slnil => exact Nat.le_refl _
  | cons t _ ih =>
    rw [count_threadsHoldings_cons]
    omega
  | cons_cons t _ ih =>
    rw [count_threadsHoldings_cons, count_threadsHoldings_cons]
    omega

theorem Execution.count_holdings_cons {e : Execution} {b : Block} {rest : List Block}
    (now : e.ahead = b :: rest) (h : Holding) :
    e.holdings.count h = (e.handle.toList.map Holding.reminder).count h +
      ((blocksHeld e.behind).map Holding.reminder).count h + b.holdings.count h +
        ((blocksHeld rest).map Holding.reminder).count h + (threadsHoldings e.threads).count h := by
  simp only [holdings, threadsHoldings, Block.holdings, held_eq, sleepTokens_cons now, now,
    blocksHeld_cons, List.map_append, List.count_append]
  omega

theorem Execution.holdings_nil {e : Execution} (now : e.ahead = []) :
    e.holdings = (e.handle.toList ++ (blocksHeld e.behind ++ threadsHeld e.threads)).map
      Holding.reminder ++ (threadsTokens e.threads).map Holding.token := by
  simp [holdings, held_eq, sleepTokens_eq, Sequence.current?, now]

/-- A thread has no reminder of its own and no callback that fails, and one that does not run holds
nothing. -/
structure Execution.Plain (e : Execution) : Prop where
  handle : e.handle = none
  hooks : ∀ b ∈ e.ahead, b.HooksSucceed
  idle : e.isRunning = false → e.holdings = []

/-- The blocks that were left hold nothing, those that are still to be entered hold no token, and
all threads are plain. -/
inductive Execution.Orderly : Execution → Prop
  | intro {e : Execution} (behind : blocksHeld e.behind = [])
      (waiting : ∀ b ∈ e.ahead.tail, b.tokens = [])
      (plain : ∀ t ∈ e.threads, t.execution.Plain)
      (inside : ∀ t ∈ e.threads, t.execution.Orderly) : e.Orderly

variable {services : Services σ} {w : World σ} {others : List Holding}

/-- An operation gives back all that its part holds. If it is refused, the part holds what is left,
and unless a callback may fail something may be lost. -/
def Outcome.GivesBack {τ α : Type} (o : Outcome σ τ α) (quiet : Prop) (holdings : τ → List Holding)
    (others : List Holding) : Prop :=
  o.Ends (fun _ part w => holdings part = [] ∧ w.Covers others)
    fun _ part w => w.Covers (holdings part ++ others) ∧ (quiet → w.Lost)

theorem LeaveHook.run_covers (hook : LeaveHook)
    (covers : w.Covers (hook.held.map Holding.reminder ++ others)) :
    Answered (fun _ w => w.Covers others) (fun _ w => w.Covers others ∧ (hook.Succeeds → w.Lost))
      (hook.run services w) := by
  cases hook with
  | removeReminder id =>
    have removed : Answered (fun _ w => w.Covers others) (fun _ w => w.Lost)
        (w.removeReminder services id) := World.removeReminder_covers services covers
    show Answered _ _ (w.removeReminder services id)
    exact removed.elim (fun _ _ covers => covers) fun _ _ lost => ⟨Or.inl lost, fun _ => lost⟩
  | custom name failure =>
    cases failure with
    | none => exact World.ask_covers covers (.hook name) nofun fun h => (.ok (), h)
    | some e => exact ⟨World.ask_covers covers (.hook name) nofun fun h => (.error e, h), nofun⟩

theorem LeaveHook.runAll_givesBack (hooks : List LeaveHook)
    (covers : w.Covers (holdings hooks ++ others)) :
    (runAll services hooks w).GivesBack (∀ hook ∈ hooks, hook.Succeeds) holdings others := by
  induction hooks generalizing w with
  | nil => exact ⟨rfl, covers⟩
  | cons hook rest ih =>
    rw [holdings, List.flatMap_cons, List.map_append, List.append_assoc] at covers
    unfold runAll
    refine (hook.run_covers covers).elim (fun _ v covers => ?_) fun _ v failed => ?_
    · exact (ih covers).mono (fun _ _ _ failed => ⟨failed.1, fun quiet =>
        failed.2 fun other mem => quiet other (List.mem_cons_of_mem hook mem)⟩)
        fun _ _ _ fine => fine
    · exact ⟨failed.1, fun quiet => failed.2 (quiet hook List.mem_cons_self)⟩

theorem Sleep.giveBackToken_givesBack (s : Sleep) (covers : w.Covers (s.holdings ++ others)) :
    (s.giveBackToken services w).GivesBack True holdings others := by
  obtain ⟨value, unit, silent, remaining, token, route⟩ := s
  cases token with
  | none => exact ⟨rfl, covers⟩
  | some token =>
    simp only [giveBackToken]
    exact (World.releasePause_covers services covers).elim (fun _ _ covers => ⟨rfl, covers⟩)
      fun _ _ lost => ⟨Or.inl lost, fun _ => lost⟩

theorem Sleep.release_givesBack (s : Sleep) (covers : w.Covers (s.holdings ++ others)) :
    (s.release services w).GivesBack True holdings others := by
  unfold release
  split
  · exact (World.cancelCountdown_covers services covers s.route).elim
      (fun _ _ covers => giveBackToken_givesBack { s with remaining := .zero } covers)
      fun _ _ lost => ⟨Or.inl lost, fun _ => lost⟩
  · exact s.giveBackToken_givesBack covers

namespace Block

/-- Wrapping up gives back the token and leaves the reminders alone. -/
theorem wrapUp_covers (b : Block) (covers : w.Covers (b.holdings ++ others)) :
    (b.wrapUp services w).Ends
      (fun _ b' w => b'.tokens = [] ∧ b'.hooks = b.hooks ∧
        w.Covers (b'.held.map Holding.reminder ++ others))
      fun _ _ w => w.Lost := by
  unfold wrapUp
  cases activity : b.activity with
  | sleep s =>
    have regrouped : w.Covers (s.holdings ++ (b.held.map Holding.reminder ++ others)) :=
      covers.more fun h => by
        simp only [holdings, tokens, activity, Sleep.holdings, List.count_append]
        omega
    refine (s.release_givesBack regrouped).within (fun _ _ _ failed => failed.2 trivial)
      fun _ s' w given => ⟨?_, rfl, given.2⟩
    have token : s'.token = none := by
      have nothing := given.1
      cases same : s'.token with
      | none => rfl
      | some token => simp [Sleep.holdings, same] at nothing
    simp only [tokens, token, Option.toList_none]
  | _ =>
    have tokens : b.tokens = [] := by simp only [tokens, activity]
    rw [holdings, tokens, List.map_nil, List.append_nil] at covers
    refine ⟨?_, rfl, covers⟩
    simp only [Block.tokens, activity]

/-- The reminder of a block and its hooks are given back, whatever else it holds. -/
theorem discard_covers (b : Block) (covers : w.Covers (b.held.map Holding.reminder ++ others)) :
    (b.discard services w).Ends
      (fun _ b' w => b'.held = [] ∧ b'.tokens = b.tokens ∧ w.Covers others)
      fun _ b' w => w.Covers (b'.held.map Holding.reminder ++ others) ∧ b'.tokens = b.tokens ∧
        (b.HooksSucceed → w.Lost) := by
  obtain ⟨id, image, reminder, handle, hooks, text, activity⟩ := b
  have ran : ∀ v : World σ, v.Covers (LeaveHook.holdings hooks ++ others) →
      (runHooks services ⟨id, image, reminder, none, hooks, text, activity⟩ v).Ends
        (fun _ b' w => b'.held = [] ∧
          b'.tokens = (⟨id, image, reminder, none, hooks, text, activity⟩ : Block).tokens ∧
          w.Covers others)
        fun _ b' w => w.Covers (b'.held.map Holding.reminder ++ others) ∧
          b'.tokens = (⟨id, image, reminder, none, hooks, text, activity⟩ : Block).tokens ∧
          ((∀ hook ∈ hooks, hook.Succeeds) → w.Lost) := by
    intro v covers
    refine (LeaveHook.runAll_givesBack hooks covers).within
      (fun _ _ _ failed => ⟨failed.1, rfl, failed.2⟩) fun _ left _ fine => ⟨?_, rfl, fine.2⟩
    exact List.map_eq_nil_iff.mp fine.1
  cases handle with
  | none => exact ran w covers
  | some number =>
    have removed : Answered (fun _ w => w.Covers (LeaveHook.holdings hooks ++ others))
        (fun _ w => w.Lost) (w.removeReminder services number) :=
      World.removeReminder_covers services covers
    unfold discard unregister
    simp only
    refine removed.elim (fun _ v covers => ?_) fun _ v lost => ?_
    · exact ran v covers
    · exact ⟨Or.inl lost, rfl, fun _ => lost⟩

theorem leave_givesBack (b : Block) (covers : w.Covers (b.holdings ++ others)) :
    (b.leave services w).GivesBack b.HooksSucceed holdings others := by
  refine (b.wrapUp_covers covers).bind (fun _ b' w lost => ⟨Or.inl lost, fun _ => lost⟩)
    fun _ b' w wrapped => ?_
  obtain ⟨token, hooks, covers⟩ := wrapped
  refine (b'.discard_covers covers).mono (fun _ b'' w failed => ?_) fun _ b'' w fine => ?_
  · obtain ⟨covers, same, lost⟩ := failed
    refine ⟨covers.more fun h => ?_, fun quiet => lost ?_⟩
    · simp only [holdings, same, token, List.map_nil, List.append_nil, Nat.le_refl]
    · intro hook mem
      rw [hooks] at mem
      exact quiet hook mem
  · obtain ⟨nothing, same, covers⟩ := fine
    exact ⟨by rw [holdings, nothing, same, token]; rfl, covers⟩

end Block

/-- What is to be given back has been, or something may be lost. -/
def Outcome.Returns {τ α : Type} (o : Outcome σ τ α) (others : List Holding) : Prop :=
  o.Ends (fun _ _ w => w.Covers others) fun _ _ w => w.Lost

theorem discardAll_returns (blocks : List Block) (quiet : ∀ b ∈ blocks, b.HooksSucceed)
    (covers : w.Covers ((blocksHeld blocks).map Holding.reminder ++ others)) :
    (discardAll services blocks w).Returns others := by
  induction blocks generalizing w with
  | nil => exact covers
  | cons b rest ih =>
    rw [blocksHeld_cons, List.map_append, List.append_assoc] at covers
    refine (b.discard_covers covers).bind
      (fun _ _ _ failed => failed.2.2 (quiet b List.mem_cons_self)) fun _ _ _ fine => ?_
    exact (ih (fun c mem => quiet c (List.mem_cons_of_mem b mem)) fine.2.2).within
      (fun _ _ _ lost => lost) fun _ _ _ covers => covers

namespace Sequence

theorem noteLeft_covers {s : Sequence} {b : Block} (covers : w.Covers others) :
    (s.noteLeft b w).Covers others := by
  have note : Entry.IsNote (fun _ => True) (.left s.address s.cursor b.shownText) := trivial
  exact covers.note note

theorem noteEntered_covers {s : Sequence} {b : Block} (covers : w.Covers others) :
    (s.noteEntered b w).Covers others := by
  have note : Entry.IsNote (fun _ => True) (.entered s.address s.cursor b.shownText) := trivial
  exact covers.note note

theorem noteFinished_covers {s : Sequence} (covers : w.Covers others) :
    (w.note (.finished s.address)).Covers others := by
  have note : Entry.IsNote (fun _ => True) (.finished s.address) := trivial
  exact covers.note note

theorem unregister_covers (s : Sequence)
    (covers : w.Covers (s.handle.toList.map Holding.reminder ++ others)) :
    (s.unregister services w).Ends
      (fun _ line w => line = { s with handle := none } ∧ w.Covers others)
      fun _ line w => line = { s with handle := none } ∧ w.Lost := by
  obtain ⟨behind, ahead, started, finished, cancelled, description, reminder, handle, address,
    pause⟩ := s
  cases handle with
  | none => exact ⟨rfl, covers⟩
  | some id =>
    have removed : Answered (fun _ w => w.Covers others) (fun _ w => w.Lost)
        (w.removeReminder services id) := World.removeReminder_covers services covers
    simp only [unregister]
    exact removed.elim (fun _ _ covers => ⟨rfl, covers⟩) fun _ _ lost => ⟨rfl, lost⟩

theorem giveUp_returns (s : Sequence) (quiet : ∀ b ∈ s.ahead, b.HooksSucceed)
    (covers : w.Covers ((blocksHeld s.ahead).map Holding.reminder ++
      (s.handle.toList.map Holding.reminder ++ others))) :
    (s.giveUp services w).Returns others :=
  (discardAll_returns s.ahead quiet covers).bind (fun _ _ _ lost => lost)
    fun _ ahead _ covers => (unregister_covers { s with ahead } covers).mono
      (fun _ _ _ lost => lost.2) fun _ _ _ covers => covers.2

theorem halt_returns (s : Sequence) (quiet : ∀ b ∈ s.ahead, b.HooksSucceed)
    (covers : w.Covers ((s.current?.toList.flatMap Block.tokens).map Holding.token ++
      ((blocksHeld s.ahead).map Holding.reminder ++
        (s.handle.toList.map Holding.reminder ++ others)))) :
    (s.halt services w).Returns others := by
  unfold halt
  split
  · next now =>
    simp only [current?, now, List.head?_nil, Option.toList_none, List.flatMap_nil, List.map_nil,
      List.nil_append] at covers
    refine s.giveUp_returns quiet ?_
    rwa [now]
  · next b rest now =>
    have regrouped : w.Covers (b.holdings ++ ((blocksHeld rest).map Holding.reminder ++
        (s.handle.toList.map Holding.reminder ++ others))) := covers.more fun h => by
      simp only [current?, now, List.head?_cons, Option.toList_some, List.flatMap_cons,
        List.flatMap_nil, List.append_nil, blocksHeld_cons, Block.holdings, List.map_append,
        List.count_append]
      omega
    have quiet_here : b.HooksSucceed := quiet b (by simp [now])
    have quiet_rest : ∀ c ∈ rest, c.HooksSucceed := fun c mem => quiet c (by simp [now, mem])
    refine (b.leave_givesBack regrouped).bind (fun _ _ _ failed => failed.2 quiet_here)
      fun _ left v fine => ?_
    exact (s.advance left rest).giveUp_returns quiet_rest (noteLeft_covers fine.2)

end Sequence

mutual

theorem Execution.cancel_returns : ∀ (e : Execution) (w : World σ) (others : List Holding),
    e.Orderly → e.Plain → w.Covers (e.holdings ++ others) →
      (e.cancel services w).Returns others
  | ⟨line, threads⟩, w, others, orderly, plain, covers => by
    rw [Execution.cancel]
    split
    · obtain ⟨behind, -, threads_plain, inside⟩ := orderly
      have behind : blocksHeld line.behind = [] := behind
      have regrouped : w.Covers (threadsHoldings threads ++
          ((line.current?.toList.flatMap Block.tokens).map Holding.token ++
            ((blocksHeld line.ahead).map Holding.reminder ++
              (line.handle.toList.map Holding.reminder ++ others)))) :=
        covers.more fun h => by
          simp only [Execution.holdings, Execution.held_eq, Execution.sleepTokens_eq,
            threadsHoldings, behind, List.nil_append, List.map_append, List.count_append]
          omega
      exact (cancelThreads_returns threads w _ threads_plain inside regrouped).bind
        (fun _ _ _ lost => lost) fun _ _ v covers =>
          ({ line with cancelled := true }.halt_returns plain.hooks covers).within
            (fun _ _ _ lost => lost) fun _ _ _ covers => covers
    · next idle =>
      have nothing := plain.idle (Bool.not_eq_true _ ▸ idle)
      rw [nothing] at covers
      exact covers

theorem cancelThreads_returns : ∀ (threads : List Thread) (w : World σ) (others : List Holding),
    (∀ t ∈ threads, t.execution.Plain) → (∀ t ∈ threads, t.execution.Orderly) →
      w.Covers (threadsHoldings threads ++ others) →
        (cancelThreads services threads w).Returns others
  | [], w, others, _, _, covers => covers
  | ⟨branch, execution⟩ :: rest, w, others, plain, inside, covers => by
    have regrouped : w.Covers (execution.holdings ++ (threadsHoldings rest ++ others)) :=
      covers.more fun h => by
        simp only [List.count_append, count_threadsHoldings_cons]
        omega
    exact (execution.cancel_returns w _ (inside _ List.mem_cons_self) (plain _ List.mem_cons_self)
      regrouped).bind (fun _ _ _ lost => lost) fun _ _ v covers =>
        cancelThreads_returns rest v others (fun t mem => plain t (List.mem_cons_of_mem _ mem))
          (fun t mem => inside t (List.mem_cons_of_mem _ mem)) covers

end

end Stepwise
