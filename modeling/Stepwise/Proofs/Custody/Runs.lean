import Stepwise.Proofs.Custody.Delivery
import Stepwise.Proofs.Pausing.Runs

/-!
# What is due after every call

The host may refuse any request at any time and callbacks may fail. As long as none of the refused
requests was to take something back, every reminder that is active is held by the run, and every
outstanding token is held by the run or by the host. A refusal while the losing branches of a group
are cancelled does lose what the branches behind it hold.
-/

namespace Stepwise

variable {σ : Type} {book : σ → ReminderBook} {services : Services σ} {hand : Handed} {w : World σ}

namespace World

/-- Nothing is due before the first call. -/
theorem covers_of_makings {host : σ} {pause : PauseRequests} (none : pause.outstanding = [])
    {journal : List Entry} (makings : ∀ entry ∈ journal, entry.IsMaking) (holdings : List Holding) :
    World.Covers ⟨host, pause, journal⟩ holdings := by
  have inactive : activeIn journal = [] := by
    induction journal with
    | nil => rfl
    | cons entry journal ih =>
      have making := makings entry List.mem_cons_self
      have earlier := ih fun other mem => makings other (List.mem_cons_of_mem entry mem)
      cases entry with
      | built _ | opened _ _ => exact earlier
      | _ => exact False.elim making
  refine Or.inr ?_
  intro h
  cases h with
  | reminder id => simp [due, inactive]
  | token token => simp [due, none]

/-- All that is due has a place among the holdings. -/
theorem Covers.mem {holdings : List Holding} (covers : w.Covers holdings) (kept : ¬ w.Lost) :
    (∀ id ∈ activeIn w.journal, Holding.reminder id ∈ holdings) ∧
      ∀ token ∈ w.pause.outstanding, Holding.token token ∈ holdings := by
  have all := covers.resolve_left kept
  constructor
  · intro id active
    exact List.count_pos_iff.mp (Nat.lt_of_lt_of_le (List.count_pos_iff.mpr active)
      (all (.reminder id)))
  · intro token outstanding
    exact List.count_pos_iff.mp (Nat.lt_of_lt_of_le (List.count_pos_iff.mpr outstanding)
      (all (.token token)))

end World

namespace Execution

variable {e : Execution}

/-- Blocks that hold nothing are put behind the current one. -/
theorem Orderly.extend (orderly : e.Orderly) {ahead : List Block}
    (tokens : ∀ b ∈ ahead.tail, b.tokens = [])
    (current : (ahead.head?.toList.flatMap Block.tokens) = e.current?.toList.flatMap Block.tokens)
    (held : (blocksHeld ahead).Perm (blocksHeld e.ahead)) :
    Orderly { e with ahead } ∧
      ∀ h, (holdings { e with ahead }).count h = e.holdings.count h := by
  obtain ⟨behind, -, threads⟩ := orderly_iff.mp orderly
  constructor
  · exact orderly_iff.mpr ⟨behind, tokens, threads⟩
  · have same_tokens : sleepTokens { e with ahead } = e.sleepTokens := by
      rw [sleepTokens_eq, sleepTokens_eq, ← current]
      rfl
    have same_held : (Execution.held { e with ahead }).Perm e.held := by
      rw [held_eq, held_eq]
      exact (((held.append_right _).append_left _).append_left _)
    intro h
    rw [holdings, holdings, same_tokens]
    exact ((same_held.map Holding.reminder).append_right _).count_eq h

end Execution

theorem Outcome.Keeps.left {o : Outcome σ Execution Unit} {plain : Prop} {others : List Holding}
    (keeps : o.Keeps plain others) : Kept plain others o.part o.world := by
  obtain ⟨result, e, w⟩ := o
  cases result <;> exact keeps

namespace Run

/-- All that is due is held by the root or by the host. Before the start the root has no reminder of
its own, and no block has a token. -/
structure InCustody (hand : Handed) (r : Run σ) : Prop where
  inOrder : r.InOrder
  orderly : r.root.Orderly
  unstarted : r.root.started = false →
    r.root.handle = none ∧ ∀ b ∈ r.root.ahead, b.tokens = []
  covers : r.world.Covers (r.root.holdings ++ hand.kept.map .token)

variable {r : Run σ}

theorem begin_keeps {e : Execution} {others : List Holding} (orderly : e.Orderly)
    (unstarted : Unstarted e) (handle : e.handle = none) (tokens : ∀ b ∈ e.ahead, b.tokens = [])
    (covers : w.Covers (e.holdings ++ others)) :
    (begin services e w).Keeps False others := by
  obtain ⟨behind, waiting, -⟩ := Execution.orderly_iff.mp orderly
  obtain ⟨unfinished, uncancelled, none⟩ := unstarted
  -- What the root holds before its start is what its blocks hold.
  have no_token : e.current?.toList.flatMap Block.tokens = [] := by
    rw [List.flatMap_eq_nil_iff]
    intro b mem
    exact tokens b (List.mem_of_mem_head? (Option.mem_toList.mp mem))
  have holdings : e.holdings = (blocksHeld e.ahead).map Holding.reminder := by
    simp [Execution.holdings, Execution.held_eq, Execution.sleepTokens_eq, handle, behind, none,
      no_token]
  have entered : ∀ (handle : Option Nat) (v : World σ),
      v.Covers (handle.toList.map Holding.reminder ++ (e.holdings ++ others)) →
      (Execution.enter services { e with started := true, handle } v).Keeps False others := by
    intro handle v covers
    refine Execution.enter_keeps _ v others False ?_ none behind tokens False.elim
      (covers.more fun h => ?_)
    · simp [Sequence.isRunning, unfinished, uncancelled]
    · simp only [holdings, List.map_append, List.count_append]
      omega
  unfold begin
  simp only
  split
  · next reminder description _ _ =>
    refine (World.addReminder_covers services covers description reminder).elim
      (fun id v covers => entered (some id) v covers) fun _ v covers => ?_
    refine ⟨covers.more fun h => ?_, Execution.orderly_iff.mpr ⟨behind, waiting, none ▸ .nil⟩,
      False.elim⟩
    simp [Execution.holdings, Execution.held_eq, Execution.sleepTokens_eq, Sequence.current?]
  · refine entered e.handle w ?_
    rw [handle]
    exact covers

/-- Blocks that hold nothing are put among those ahead of the root. -/
theorem InCustody.extend (custody : r.InCustody hand) {ahead : List Block} {call : Call}
    (extended : r.perform services call = { r with root := { r.root with ahead } })
    (current : ahead.head?.toList.flatMap Block.tokens =
      r.root.current?.toList.flatMap Block.tokens)
    (waiting : ∀ b ∈ ahead.tail, b.tokens = [])
    (held : (blocksHeld ahead).Perm (blocksHeld r.root.ahead))
    (unstarted : (∀ b ∈ r.root.ahead, b.tokens = []) → ∀ b ∈ ahead, b.tokens = []) :
    (r.perform services call).InCustody hand := by
  have inOrder := inOrder_perform services r call custody.inOrder
  obtain ⟨orderly, same⟩ := custody.orderly.extend waiting current held
  rw [extended] at inOrder ⊢
  refine ⟨inOrder, orderly, ?_, custody.covers.more fun h => ?_⟩
  · intro before
    obtain ⟨handle, tokens⟩ := custody.unstarted before
    exact ⟨handle, unstarted tokens⟩
  · simp only [List.count_append, same, Nat.le_refl]

theorem inCustody_push (custody : r.InCustody hand) (block : HostBlock) :
    (r.perform services (.push block)).InCustody hand := by
  have token := block.tokens_block
  have waiting := (Execution.orderly_iff.mp custody.orderly).2.1
  refine custody.extend rfl ?_ ?_ ?_ ?_
  · unfold Sequence.current?
    cases r.root.ahead with
    | nil => simp [token]
    | cons b rest => rfl
  · cases now : r.root.ahead with
    | nil => exact List.forall_mem_nil _
    | cons b rest =>
      rw [now] at waiting
      exact List.forall_mem_append.mpr ⟨waiting, List.forall_mem_singleton.mpr token⟩
  · rw [blocksHeld_append, blocksHeld_cons, held_block, blocksHeld_nil, List.append_nil,
      List.append_nil]
  · intro tokens
    exact List.forall_mem_append.mpr ⟨tokens, List.forall_mem_singleton.mpr token⟩

theorem inCustody_splice (custody : r.InCustody hand) (blocks : List HostBlock) :
    (r.perform services (.splice blocks)).InCustody hand := by
  have tokens : ∀ c ∈ blocks.map HostBlock.block, c.tokens = [] :=
    List.forall_mem_map.mpr fun block _ => block.tokens_block
  have held : blocksHeld (blocks.map HostBlock.block) = [] :=
    blocksHeld_eq_nil (List.forall_mem_map.mpr fun block _ => held_block block)
  have waiting := (Execution.orderly_iff.mp custody.orderly).2.1
  have spliced : r.perform services (.splice blocks) = { r with root := { r.root with
      ahead := (r.root.toSequence.splice (blocks.map HostBlock.block)).ahead } } := by
    rw [perform, splice, Sequence.splice_eq]
  cases now : r.root.ahead with
  | nil =>
    have none : r.root.current? = none := by rw [Sequence.current?, now]; rfl
    have ahead : (r.root.toSequence.splice (blocks.map HostBlock.block)).ahead =
        blocks.map HostBlock.block := by rw [Sequence.splice, now]
    rw [ahead] at spliced
    refine custody.extend spliced ?_ (fun c mem => tokens c (List.mem_of_mem_tail mem)) ?_
      fun _ => tokens
    · rw [none]
      refine List.flatMap_eq_nil_iff.mpr ?_
      intro c mem
      exact tokens c (List.mem_of_mem_head? (Option.mem_toList.mp mem))
    · rw [held, now, blocksHeld_nil]
  | cons b rest =>
    have current : r.root.current? = some b := by rw [Sequence.current?, now]; rfl
    rw [Sequence.ahead_splice now] at spliced
    rw [now] at waiting
    refine custody.extend spliced ?_ (List.forall_mem_append.mpr ⟨tokens, waiting⟩) ?_ ?_
    · rw [current]
      rfl
    · rw [now, blocksHeld_cons, blocksHeld_append, held, List.nil_append, blocksHeld_cons]
    · rw [now]
      intro before
      obtain ⟨here, later⟩ := List.forall_mem_cons.mp before
      exact List.forall_mem_cons.mpr ⟨here, List.forall_mem_append.mpr ⟨tokens, later⟩⟩

theorem inCustody_start (custody : r.InCustody hand) :
    (r.perform services .start).InCustody hand := by
  have inOrder := inOrder_perform services r .start custody.inOrder
  cases started : r.root.started with
  | true =>
    simp only [perform, start, started, if_true]
    exact custody
  | false =>
    have before := custody.inOrder.unstarted started
    obtain ⟨handle, tokens⟩ := custody.unstarted started
    have now_started := (begin_evolves services before.threads r.world).2
    have began : (begin services r.root r.world).Keeps False (hand.kept.map Holding.token) :=
      begin_keeps custody.orderly before handle tokens custody.covers
    have kept := began.left
    simp only [perform, start, started, Bool.false_eq_true, if_false] at inOrder ⊢
    refine ⟨inOrder, kept.orderly, ?_, kept.covers⟩
    intro unstarted
    exact absurd (unstarted.symm.trans now_started) Bool.false_ne_true

theorem inCustody_requestPause (custody : r.InCustody hand) :
    (r.perform services .requestPause).InCustody (hand.perform services r .requestPause) := by
  have inOrder := inOrder_perform services r .requestPause custody.inOrder
  have requested : Answered
      (fun token w => w.Covers (.token token :: (r.root.holdings ++ hand.kept.map .token)))
      (fun _ w => w.Covers (r.root.holdings ++ hand.kept.map .token))
      (r.world.requestPause services) := World.requestPause_covers services custody.covers
  rcases answered : r.world.requestPause services with ⟨answer, v⟩
  rw [answered] at requested
  simp only [perform, Handed.perform, requestPause, answered] at inOrder ⊢
  cases answer with
  | error e => exact ⟨inOrder, custody.orderly, custody.unstarted, requested⟩
  | ok token =>
    refine ⟨inOrder, custody.orderly, custody.unstarted, World.Covers.more requested ?_⟩
    intro h
    simp only [Except.mapError, List.map_cons, List.count_append, List.count_cons]
    omega

theorem inCustody_releasePause (custody : r.InCustody hand) (token : Nat) :
    (r.perform services (.releasePause token)).InCustody
      (hand.perform services r (.releasePause token)) := by
  have inOrder := inOrder_perform services r (.releasePause token) custody.inOrder
  -- A token that the host does not keep is not counted among those that it keeps.
  have regrouped : r.world.Covers
      (.token token :: (r.root.holdings ++ (hand.kept.erase token).map .token)) := by
    refine custody.covers.more ?_
    intro h
    obtain ⟨same, permuted, inside⟩ := List.subperm_cons_erase token hand.kept
    have as_many := (permuted.map Holding.token).count_eq h
    have fewer := (inside.map Holding.token).count_le h
    simp only [List.map_cons, List.count_cons, List.count_append] at fewer ⊢
    omega
  have released : Answered
      (fun _ w => w.Covers (r.root.holdings ++ (hand.kept.erase token).map .token))
      (fun _ w => w.Lost) (r.world.releasePause services token) :=
    World.releasePause_covers services regrouped
  rcases answered : r.world.releasePause services token with ⟨answer, v⟩
  rw [answered] at released
  simp only [perform, Handed.perform, releasePause, answered] at inOrder ⊢
  cases answer with
  | error e => exact ⟨inOrder, custody.orderly, custody.unstarted, Or.inl released⟩
  | ok _ => exact ⟨inOrder, custody.orderly, custody.unstarted, released⟩

theorem inCustody_perform (custody : r.InCustody hand) (call : Call) :
    (r.perform services call).InCustody (hand.perform services r call) := by
  cases call with
  | start => exact inCustody_start custody
  | push block => exact inCustody_push custody block
  | splice blocks => exact inCustody_splice custody blocks
  | requestPause => exact inCustody_requestPause custody
  | releasePause token => exact inCustody_releasePause custody token
  | dispatch path event =>
    have delivered : (r.root.dispatch services event path r.world).Keeps False
        (hand.kept.map Holding.token) :=
      r.root.dispatch_keeps event path custody.orderly False.elim custody.covers
    have kept := delivered.left
    refine ⟨inOrder_perform services r _ custody.inOrder, kept.orderly, ?_, kept.covers⟩
    intro unstarted
    have before := unstarted_before services custody.inOrder _ unstarted
    rw [root_perform_dispatch services before]
    exact custody.unstarted before

theorem inCustody_after (custody : r.InCustody hand) (calls : List Call) :
    (r.after services calls).InCustody (hand.after services r calls) := by
  induction calls generalizing r hand with
  | nil => exact custody
  | cons call calls ih => exact ih (inCustody_perform custody call)

theorem Assembled.inCustody {blocks : List HostBlock} (assembled : r.Assembled blocks) :
    r.InCustody .empty := by
  obtain ⟨description, reminder, root⟩ := assembled.root
  have tokens : ∀ b ∈ blocks.map HostBlock.block, b.tokens = [] :=
    List.forall_mem_map.mpr fun block _ => block.tokens_block
  refine ⟨assembled.toFresh.inOrder, ?_, ?_, ?_⟩
  · rw [root]
    exact .intro rfl (fun b mem => tokens b (List.mem_of_mem_tail mem)) (List.forall_mem_nil _)
      (List.forall_mem_nil _)
  · rw [root]
    intro _
    exact ⟨rfl, tokens⟩
  · have no_pause : r.world.pause.outstanding = [] := by rw [assembled.pause]; rfl
    exact World.covers_of_makings no_pause assembled.journal _

/-- In every state that calls can lead to, whatever the host refused and whichever callbacks failed:
either the host has refused to take something back, or every reminder that is active is held by the
run and every outstanding token by the host or by a wait that the run is in. -/
theorem held_unless_refused (keeps : services.KeepsBookAtWill book) {blocks : List HostBlock}
    (assembled : r.Assembled blocks) (empty : book r.world.host = .empty) (calls : List Call) :
    let after := r.after services calls
    let kept := (Handed.empty.after services r calls).kept
    (∃ entry ∈ after.world.journal, entry.isRefusedReturn = true) ∨
      (∀ id ∈ (book after.world.host).ids, id ∈ after.root.held) ∧
        ∀ token ∈ after.world.pause.outstanding, token ∈ kept ∨ token ∈ after.root.sleepTokens := by
  have backed := backed_after keeps (assembled.backed empty) calls
  have custody : (r.after services calls).InCustody (Handed.empty.after services r calls) :=
    inCustody_after assembled.inCustody calls
  by_cases lost : (r.after services calls).world.Lost
  · exact Or.inl lost
  · obtain ⟨reminders, tokens⟩ := custody.covers.mem lost
    refine Or.inr ⟨?_, ?_⟩
    · intro id active
      have due : id ∈ activeIn (r.after services calls).world.journal := by
        rw [← List.count_pos_iff, backed.journaled]
        exact List.count_pos_iff.mpr active
      simpa [Execution.holdings] using reminders id due
    · intro token outstanding
      have place := tokens token outstanding
      simpa [Execution.holdings, or_comm] using place

/-- One of the two branches waits silently, with a reminder. The fourth request is refused. -/
def bath : Run (InMemory × List Bool) :=
  .ofWorkflow ⟨"bath", none, some ⟨10, .minutes⟩, [.parallel "at once" 2
    [[.task "fill"], [(Template.sleep 5 .minutes "soak" true).withReminder ⟨1, .minutes⟩]],
    .task "dry"]⟩ (.empty, [false, false, false, true])

/-- The countdown of the wait is not started, and the wait keeps its reminder and its token. -/
theorem held_unless_refused_bath :
    let calls : List Call := [.start, .requestPause,
      .push ⟨.task "tidy", [("bell", some (.timer "no bell"))]⟩, .dispatch [0] .done]
    let after := bath.after wavering calls
    let kept := (Handed.empty.after wavering bath calls).kept
    ((¬ ∃ entry ∈ after.world.journal, entry.isRefusedReturn = true) ∧
      after.world.host.1.reminders.ids = [1, 2] ∧ after.world.pause.outstanding = [1, 0]) ∧
    ((∃ entry ∈ after.world.journal, entry.isRefusedReturn = true) ∨
      (∀ id ∈ after.world.host.1.reminders.ids, id ∈ after.root.held) ∧
        ∀ token ∈ after.world.pause.outstanding, token ∈ kept ∨ token ∈ after.root.sleepTokens) :=
  ⟨by decide +kernel,
    held_unless_refused keepsBookAtWill_wavering (assembled_ofWorkflow _ _) rfl _⟩

/-- Two branches wait when the first one finishes, the second of them silently and with a
reminder. -/
def dinner : Run InMemory :=
  .ofWorkflow ⟨"dinner", none, none, [.parallel "either" 1
    [[.task "serve"], [.sleep 5 .minutes "cool" false],
      [(Template.sleep 9 .minutes "rest" true).withReminder ⟨1, .minutes⟩]]]⟩ .empty

/-- The countdown of the first loser cannot be cancelled. The second loser is never asked to leave,
and nothing holds its reminder and its token any more, also when the host answers again. -/
theorem dinner_lost :
    let failing (now : Bool) (m : InMemory) : InMemory :=
      { m with countdown := { m.countdown with failing := now } }
    let waiting := dinner.after InMemory.services [.start]
    let after := ((waiting.changeHost (failing true)).perform InMemory.services
      (.dispatch [0] .done)).changeHost (failing false)
    (waiting.root.held = [1] ∧ waiting.root.sleepTokens = [0]) ∧
      (after.world.host.reminders.ids = [1] ∧ after.root.held = []) ∧
      (after.world.pause.outstanding = [0] ∧ after.root.sleepTokens = []) := by
  decide +kernel

end Run

end Stepwise
