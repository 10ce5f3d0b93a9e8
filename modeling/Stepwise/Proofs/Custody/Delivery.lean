import Stepwise.Proofs.Custody.Entering
import Stepwise.Proofs.Ownership.Delivery
import Stepwise.Proofs.Pausing.Delivery

/-!
# Holding on through events

What a block held before an event it holds afterwards, or the blocks that come after it hold it. So
an event leaves an execution with all that is due, also if the host refuses something on the way.
-/

namespace Stepwise

variable {σ : Type} {services : Services σ} {w : World σ} {others : List Holding}

namespace Block

/-- A block that has taken an event holds all that it held, together with what comes after it. -/
def HandsOn (b : Block) (others : List Holding) (o : Outcome σ Block Reaction) : Prop :=
  o.Ends
    (fun reaction b' w => b'.hooks = b.hooks ∧
      (∀ c ∈ reaction.after, c.tokens = [] ∧ c.HooksSucceed) ∧
      w.Covers (b'.holdings ++ ((blocksHeld reaction.after).map Holding.reminder ++ others)))
    fun _ b' w => b'.hooks = b.hooks ∧ w.Covers (b'.holdings ++ others)

theorem choose_handsOn (b : Block) (branch : List Template)
    (covers : w.Covers (b.holdings ++ others)) : b.HandsOn others (b.choose branch w) := by
  have activity := b.handOn_activity (branch.map ofTemplate)
  have tokens : (b.handOn (branch.map ofTemplate)).1.tokens = b.tokens := by
    simp only [Block.tokens, activity]
  have held := b.handOn_held (branch.map ofTemplate)
  rw [blocksHeld_ofTemplates, List.append_nil] at held
  have same : ((b.handOn (branch.map ofTemplate)).1.held ++
      blocksHeld (b.handOn (branch.map ofTemplate)).2).Perm b.held := List.perm_iff_count.mpr held
  rw [choose_eq]
  refine ⟨handOn_hooks b _, fun c mem => ⟨b.tokens_handOn (tokens_ofTemplates branch) c mem,
    handOn_hooksSucceed (hooksSucceed_ofTemplates branch) c mem⟩,
    (covers.noteBuilt branch).more fun h => ?_⟩
  have moved := (same.map Holding.reminder).count_eq h
  simp only [holdings, tokens, Reaction.after, List.map_append, List.count_append] at moved ⊢
  omega

theorem answer_handsOn (b : Block) (loop : LoopKind) (body : List Template) (yes : Bool)
    (covers : w.Covers (b.holdings ++ others)) : b.HandsOn others (b.answer loop body yes w) := by
  unfold answer
  split
  · refine ⟨rfl, fun c mem => ⟨?_, answer_hooksSucceed loop body c mem⟩,
      (covers.noteBuilt body).more fun h => ?_⟩
    · rcases List.mem_append.mp mem with inside | next
      · exact tokens_ofTemplates body c inside
      · rw [List.mem_singleton.mp next]
        rfl
    · simp only [Reaction.after, blocksHeld_append, blocksHeld_ofTemplates, blocksHeld_cons,
        blocksHeld_nil, holdings, tokens, held, successor, List.flatMap_nil, List.append_nil,
        List.nil_append, Option.toList_none, List.map_append, List.count_append]
      omega
  · exact ⟨rfl, List.forall_mem_nil _, covers⟩

theorem react_handsOn (b : Block) (event : Event) (covers : w.Covers (b.holdings ++ others)) :
    b.HandsOn others (b.react services event w) := by
  -- A wait keeps its token until it leaves.
  have waits_on : ∀ {s : Sleep} {v : World σ} (remaining : Binary64) (reaction : Reaction),
      b.activity = .sleep s → reaction.after = [] → v.Covers (b.holdings ++ others) →
      b.HandsOn others
        ⟨.ok reaction, { b with activity := .sleep { s with remaining } }, v⟩ := by
    intro s v remaining reaction activity none covers
    refine ⟨rfl, ?_, ?_⟩
    · rw [none]
      exact List.forall_mem_nil _
    · rw [none]
      simpa only [holdings, tokens, held, activity, blocksHeld_nil, List.map_nil, List.nil_append]
        using covers
  unfold react
  split
  · exact ⟨rfl, List.forall_mem_nil _, covers⟩
  · exact b.choose_handsOn _ covers
  · exact b.choose_handsOn _ covers
  · exact b.answer_handsOn _ _ true covers
  · exact b.answer_handsOn _ _ false covers
  · next activity => exact waits_on _ .stay activity rfl covers
  · next activity => exact waits_on .zero (.leave []) activity rfl covers
  · next activity =>
    have aside : ∀ id, Request.forceFinish ≠ .removeReminder id := by rintro id ⟨⟩
    have forced : Answered (fun _ w => w.Covers (b.holdings ++ others))
        (fun _ w => w.Covers (b.holdings ++ others)) (w.forceFinish services) :=
      .of_world (World.ask_covers covers .forceFinish aside _)
    exact forced.elim (fun _ _ covers => waits_on .zero (.leave []) activity rfl covers)
      fun _ _ covers => ⟨rfl, covers⟩
  · exact ⟨rfl, List.forall_mem_nil _, covers.passOver _⟩

end Block

namespace Execution

variable {e : Execution} {b : Block} {rest : List Block} {plain : Prop}

/-- The current block leaves, after its threads were cancelled. -/
theorem leave_keeps {ahead : List Block} (running : e.isRunning = true)
    (behind : blocksHeld e.behind = []) (waiting : ∀ c ∈ ahead, c.tokens = [])
    (orderly : OrderlyThreads e.threads)
    (quiet : plain → e.handle = none ∧ ∀ c ∈ b :: ahead, c.HooksSucceed)
    (covers : w.Covers (b.holdings ++ (threadsHoldings e.threads ++
      ((e.handle.toList ++ blocksHeld ahead).map Holding.reminder ++ others)))) :
    (e.leave services b ahead w).Keeps plain others := by
  have regrouped : w.Covers (threadsHoldings e.threads ++ (b.holdings ++
      ((e.handle.toList ++ blocksHeld ahead).map Holding.reminder ++ others))) :=
    covers.more fun h => by
      simp only [List.count_append]
      omega
  refine (cancelThreads_returns e.threads w _ orderly.plain orderly.inside regrouped).bind
    (fun _ _ v lost => ?_) fun _ _ v covers => ?_
  · exact kept_of_block rfl running behind waiting .nil quiet (Or.inl lost)
  · exact leave_keeps_of running behind waiting quiet (fun left => enter_keeps _) covers

/-- A thread has become `x` and is put back into its place. -/
theorem kept_of_thread {before after : List Thread} (t : Thread) {x : Execution}
    (running : e.isRunning = true) (behind : blocksHeld e.behind = []) (now : e.ahead = b :: rest)
    (waiting : ∀ c ∈ rest, c.tokens = []) (others_orderly : OrderlyThreads (before ++ after))
    (x_plain : x.Plain) (x_orderly : x.Orderly)
    (quiet : plain → e.handle = none ∧ ∀ c ∈ b :: rest, c.HooksSucceed)
    (covers : w.Covers (x.holdings ++ (threadsHoldings (before ++ after) ++ (b.holdings ++
      ((e.handle.toList ++ blocksHeld rest).map Holding.reminder ++ others))))) :
    Kept plain others ⟨e.toSequence, before ++ { t with execution := x } :: after⟩ w := by
  have front : OrderlyThreads before := others_orderly.sublist (List.sublist_append_left _ _)
  have back : OrderlyThreads after := others_orderly.sublist (List.sublist_append_right _ _)
  refine kept_of_block now running behind waiting (front.append (.cons x_plain x_orderly back)) quiet
    (covers.more fun h => ?_)
  simp only [List.count_append, count_threadsHoldings_append, count_threadsHoldings_cons]
  omega

/-- A thread has become `x`, and now its group goes on. -/
theorem afterThread_keeps {join : Join} {before after : List Thread} (t : Thread) {x : Execution}
    (running : e.isRunning = true) (behind : blocksHeld e.behind = []) (now : e.ahead = b :: rest)
    (group : b.join? = some join) (waiting : ∀ c ∈ rest, c.tokens = [])
    (others_orderly : OrderlyThreads (before ++ after)) (x_plain : x.Plain) (x_orderly : x.Orderly)
    (quiet : plain → e.handle = none ∧ ∀ c ∈ b :: rest, c.HooksSucceed)
    (covers : w.Covers (x.holdings ++ (threadsHoldings (before ++ after) ++ (b.holdings ++
      ((e.handle.toList ++ blocksHeld rest).map Holding.reminder ++ others))))) :
    (e.afterThread services b rest join before after { t with execution := x } w).Keeps
      plain others := by
  have activity := Block.activity_of_join? group
  have holdings : ∀ j : Join, ({ b with activity := .parallel j } : Block).holdings = b.holdings := by
    intro j
    simp only [Block.holdings, Block.tokens, Block.held, activity]
  have quiet_group : ∀ j : Join, plain → e.handle = none ∧
      ∀ c ∈ ({ b with activity := .parallel j } : Block) :: rest, c.HooksSucceed := by
    intro j
    have same : ({ b with activity := .parallel j } : Block).hooks = b.hooks := rfl
    exact quiet_of_hooks quiet same (List.forall_mem_nil _)
  unfold afterThread
  simp only
  split
  · next finished =>
    have idle : x.isRunning = false := by simp [Sequence.isRunning, finished]
    rw [x_plain.idle idle, List.nil_append] at covers
    refine (join.complete_covers others_orderly covers).bind (fun _ part v failed => ?_)
      fun ended part v fine => ?_
    all_goals obtain ⟨counted, threads⟩ := part
    · obtain ⟨covers, orderly⟩ := failed
      refine kept_of_block rfl running behind waiting orderly (quiet_group counted)
        (covers.more fun h => ?_)
      simp only [holdings, List.count_append]
      omega
    · obtain ⟨covers, orderly, -, -⟩ := fine
      have regrouped : v.Covers (({ b with activity := .parallel counted } : Block).holdings ++
          (threadsHoldings threads ++
            ((e.handle.toList ++ blocksHeld rest).map Holding.reminder ++ others))) :=
        covers.more fun h => by
          simp only [holdings, List.count_append]
          omega
      cases ended with
      | false => exact kept_of_block rfl running behind waiting orderly (quiet_group counted) regrouped
      | true =>
        simp only [if_true]
        exact leave_keeps (e := ⟨{ e.toSequence with
          ahead := { b with activity := .parallel counted } :: rest }, threads⟩) running behind
          waiting orderly (quiet_group counted) regrouped
  · exact kept_of_thread t running behind now waiting others_orderly x_plain x_orderly quiet covers

theorem dispatch_keeps (e : Execution) (event : Event) (path : List Nat) (orderly : e.Orderly)
    (is_plain : plain → e.Plain) (covers : w.Covers (e.holdings ++ others)) :
    (e.dispatch services event path w).Keeps plain others := by
  induction depth : path.length using Nat.strongRecOn generalizing path e others plain with
  | ind n ih =>
  subst depth
  obtain ⟨behind, waiting, threads_orderly⟩ := orderly_iff.mp orderly
  refine dispatch_cases path (fun notice => ⟨covers.passOver notice, orderly, is_plain⟩) ?here
    ?thread
  case here =>
    intro b rest running now
    rw [now] at waiting
    have waiting : ∀ c ∈ rest, c.tokens = [] := waiting
    have regrouped : w.Covers (b.holdings ++ (threadsHoldings e.threads ++
        ((e.handle.toList ++ blocksHeld rest).map Holding.reminder ++ others))) :=
      covers.more fun h => by
        have holdings := count_holdings_cons now h
        simp only [behind, List.map_nil, List.count_nil, List.map_append, List.count_append]
          at holdings ⊢
        omega
    have quiet : plain → e.handle = none ∧ ∀ c ∈ b :: rest, c.HooksSucceed := fun is_plain' =>
      ⟨(is_plain is_plain').handle, now ▸ (is_plain is_plain').hooks⟩
    refine (b.react_handsOn event regrouped).bind (fun _ b' v failed => ?_)
      fun reaction b' v reacted => ?_
    · exact kept_of_block rfl running behind waiting threads_orderly
        (quiet_of_hooks quiet failed.1 (List.forall_mem_nil _)) failed.2
    · obtain ⟨same, after_quiet, covers⟩ := reacted
      cases reaction with
      | stay =>
        exact kept_of_block rfl running behind waiting threads_orderly
          (quiet_of_hooks quiet same (List.forall_mem_nil _)) covers
      | leave after =>
        refine leave_keeps running behind
          (List.forall_mem_append.mpr ⟨fun c mem => (after_quiet c mem).1, waiting⟩)
          threads_orderly (quiet_of_hooks quiet same fun c mem => (after_quiet c mem).2)
          (covers.more fun h => ?_)
        simp only [Reaction.after, blocksHeld_append, List.map_append, List.count_append]
        omega
  case thread =>
    intro b rest join before t after further running now group threads less
    rw [now] at waiting
    have waiting : ∀ c ∈ rest, c.tokens = [] := waiting
    rw [threads] at threads_orderly
    have mem : t ∈ before ++ t :: after := by simp
    have others_orderly : OrderlyThreads (before ++ after) :=
      threads_orderly.sublist ((List.sublist_cons_self t after).append_left before)
    have regrouped : w.Covers (t.execution.holdings ++ (threadsHoldings (before ++ after) ++
        (b.holdings ++
          ((e.handle.toList ++ blocksHeld rest).map Holding.reminder ++ others)))) :=
      covers.more fun h => by
        have holdings := count_holdings_cons now h
        simp only [threads, behind, count_threadsHoldings_append, count_threadsHoldings_cons,
          List.map_nil, List.count_nil, List.map_append, List.count_append] at holdings ⊢
        omega
    have quiet : plain → e.handle = none ∧ ∀ c ∈ b :: rest, c.HooksSucceed := fun is_plain' =>
      ⟨(is_plain is_plain').handle, now ▸ (is_plain is_plain').hooks⟩
    have t_plain := threads_orderly.plain t mem
    refine (ih _ less t.execution further (threads_orderly.inside t mem) (fun _ : True => t_plain)
      regrouped rfl).bind (fun _ x v kept => ?_) fun _ x v kept => ?_
    · exact kept_of_thread t running behind now waiting others_orderly (kept.plain trivial)
        kept.orderly quiet kept.covers
    · exact afterThread_keeps t running behind now group waiting others_orderly
        (kept.plain trivial) kept.orderly quiet kept.covers

end Execution

end Stepwise
