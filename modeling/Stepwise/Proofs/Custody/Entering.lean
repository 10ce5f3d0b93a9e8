import Stepwise.Proofs.Custody.Leaving
import Stepwise.Proofs.History
import Stepwise.Proofs.Ownership.Entering

/-!
# Holding on while entering

A request that a block makes when it is entered may be refused, and then the block stays current
with all that it holds already. The token of a wait that cannot be started is one of these things.
-/

namespace Stepwise

variable {σ : Type} {services : Services σ} {w : World σ} {others : List Holding}

/-- Threads as an orderly execution has them. -/
structure OrderlyThreads (threads : List Thread) : Prop where
  plain : ∀ t ∈ threads, t.execution.Plain
  inside : ∀ t ∈ threads, t.execution.Orderly

namespace OrderlyThreads

variable {threads first second : List Thread} {t : Thread}

theorem nil : OrderlyThreads [] := ⟨nofun, nofun⟩

theorem cons (plain : t.execution.Plain) (inside : t.execution.Orderly)
    (orderly : OrderlyThreads threads) : OrderlyThreads (t :: threads) :=
  ⟨List.forall_mem_cons.mpr ⟨plain, orderly.plain⟩,
    List.forall_mem_cons.mpr ⟨inside, orderly.inside⟩⟩

theorem append (orderly : OrderlyThreads first) (orderly' : OrderlyThreads second) :
    OrderlyThreads (first ++ second) :=
  ⟨List.forall_mem_append.mpr ⟨orderly.plain, orderly'.plain⟩,
    List.forall_mem_append.mpr ⟨orderly.inside, orderly'.inside⟩⟩

theorem sublist (orderly : OrderlyThreads threads) (sub : first.Sublist threads) :
    OrderlyThreads first :=
  ⟨fun t mem => orderly.plain t (sub.subset mem), fun t mem => orderly.inside t (sub.subset mem)⟩

end OrderlyThreads

namespace Execution

theorem orderly_iff {e : Execution} : e.Orderly ↔ blocksHeld e.behind = [] ∧
    (∀ b ∈ e.ahead.tail, b.tokens = []) ∧ OrderlyThreads e.threads := by
  constructor
  · rintro ⟨behind, waiting, plain, inside⟩
    exact ⟨behind, waiting, plain, inside⟩
  · rintro ⟨behind, waiting, plain, inside⟩
    exact .intro behind waiting plain inside

/-- An execution that was made and not started holds nothing. -/
theorem holdings_fresh (description : Option String) (reminder : Option Reminder)
    (address : List Nat) {blocks : List Block} (held : blocksHeld blocks = [])
    (tokens : ∀ b ∈ blocks, b.tokens = []) :
    (fresh description reminder address blocks).holdings = [] := by
  cases blocks with
  | nil => rfl
  | cons b rest =>
    have none : b.tokens = [] := tokens b List.mem_cons_self
    simp [fresh, Sequence.fresh, holdings, held_eq, sleepTokens_eq, Sequence.current?, none, held]

end Execution

theorem orderlyThreads_threadsFrom (address : List Nat) (first : Nat)
    (branches : List (List Template)) : OrderlyThreads (threadsFrom address first branches) := by
  induction branches generalizing first with
  | nil => exact .nil
  | cons templates rest ih =>
    have tokens := Block.tokens_ofTemplates templates
    refine .cons ⟨rfl, Block.hooksSucceed_ofTemplates templates, fun _ => ?_⟩ ?_ (ih (first + 1))
    · exact Execution.holdings_fresh _ _ _ (blocksHeld_ofTemplates templates) tokens
    · exact .intro rfl (fun b mem => tokens b (List.mem_of_mem_tail mem)) nofun nofun

theorem threadsHoldings_threadsFrom (address : List Nat) (first : Nat)
    (branches : List (List Template)) :
    threadsHoldings (threadsFrom address first branches) = [] := by
  rw [threadsHoldings, threadsHeld_threadsFrom, threadsTokens_threadsFrom]
  rfl

/-- A block that is still to be entered holds no token. -/
theorem Block.holdings_of_waiting {b : Block} (waiting : b.tokens = []) :
    b.holdings = b.held.map Holding.reminder := by
  rw [holdings, waiting, List.map_nil, List.append_nil]

/-- The execution keeps all that is due and stays as an execution should be. -/
structure Kept (plain : Prop) (others : List Holding) (e : Execution) (w : World σ) : Prop where
  covers : w.Covers (e.holdings ++ others)
  orderly : e.Orderly
  plain : plain → e.Plain

/-- Whether or not the operation is refused, the execution is kept. -/
def Outcome.Keeps (plain : Prop) (others : List Holding) (o : Outcome σ Execution Unit) : Prop :=
  o.Ends (fun _ e w => Kept plain others e w) fun _ e w => Kept plain others e w

namespace Execution

variable {e : Execution} {b : Block} {rest : List Block} {threads : List Thread} {plain : Prop}

/-- A running execution is kept if its current block and its threads hold what they should. -/
theorem kept_of_block (now : e.ahead = b :: rest) (running : e.isRunning = true)
    (behind : blocksHeld e.behind = []) (waiting : ∀ c ∈ rest, c.tokens = [])
    (orderly : OrderlyThreads e.threads)
    (quiet : plain → e.handle = none ∧ ∀ c ∈ b :: rest, c.HooksSucceed)
    (covers : w.Covers (b.holdings ++ (threadsHoldings e.threads ++
      ((e.handle.toList ++ blocksHeld rest).map Holding.reminder ++ others)))) :
    Kept plain others e w where
  covers := covers.more fun h => by
    have holdings := count_holdings_cons now h
    simp only [behind, List.map_nil, List.count_nil, List.map_append, List.count_append]
      at holdings ⊢
    omega
  orderly := by
    refine orderly_iff.mpr ⟨behind, ?_, orderly⟩
    rw [now]
    exact waiting
  plain is_plain := by
    obtain ⟨handle, hooks⟩ := quiet is_plain
    refine ⟨handle, now ▸ hooks, fun idle => ?_⟩
    rw [running] at idle
    cases idle

end Execution

theorem Block.register_covers (b : Block) (covers : w.Covers (b.held.map Holding.reminder ++ others)) :
    Answered (fun handle w => w.Covers (({ b with handle } : Block).held.map Holding.reminder ++ others))
      (fun _ w => w.Covers (b.held.map Holding.reminder ++ others)) (b.register services w) := by
  unfold register
  split
  · next r _ none =>
    refine (World.addReminder_covers services covers b.shownText r).elim (fun id v added => ?_)
      fun _ _ covers => covers
    refine added.more fun h => ?_
    simp [held, none]
  · exact covers

theorem Sleep.start_covers (s : Sleep) (address : List Nat) (none : s.token = none)
    (covers : w.Covers others) :
    (s.start services address w).Ends (fun _ s w => w.Covers (s.holdings ++ others))
      fun _ s w => w.Covers (s.holdings ++ others) := by
  have countdown : ∀ (v : World σ) holdings, v.Covers holdings →
      Answered (fun _ w => w.Covers holdings) (fun _ w => w.Covers holdings)
        (v.startCountdown services s.value s.unit address) := fun v holdings covers =>
    Answered.of_world (World.ask_covers covers (.startCountdown s.value s.unit address) nofun _)
  have rewound : ∀ (v : World σ) route, v.Covers others → v.Covers (holdings { s with
      remaining := fullLength s.value s.unit, route } ++ others) := by
    intro v route covers
    have unheld : holdings { s with remaining := fullLength s.value s.unit, route } = [] := by
      rw [holdings, none]
      rfl
    rwa [unheld]
  unfold start
  simp only
  split
  · refine (World.requestPause_covers services covers).elim (fun token v covers => ?_)
      fun _ v covers => rewound v s.route covers
    simp only
    exact (countdown v _ covers).elim (fun _ _ covers => covers) fun _ _ covers => covers
  · exact (countdown w _ covers).elim (fun _ v covers => rewound v address covers)
      fun _ v covers => rewound v address covers

/-- Entering an execution that has no threads keeps it. -/
def Execution.EntersKept (services : Services σ) (e : Execution) : Prop :=
  ∀ (w : World σ) (others : List Holding) (plain : Prop), e.isRunning = true → e.threads = [] →
    blocksHeld e.behind = [] → (∀ b ∈ e.ahead, b.tokens = []) →
    (plain → e.handle = none ∧ ∀ b ∈ e.ahead, b.HooksSucceed) →
    w.Covers ((e.handle.toList ++ blocksHeld e.ahead).map Holding.reminder ++ others) →
    (e.enter services w).Keeps plain others

theorem Join.complete_covers (j : Join) {threads : List Thread} (orderly : OrderlyThreads threads)
    (covers : w.Covers (threadsHoldings threads ++ others)) :
    (j.complete services threads w).Ends
      (fun ended part w => w.Covers (threadsHoldings part.2 ++ others) ∧
        OrderlyThreads part.2 ∧ part.2.Sublist threads ∧ (ended = true → part.2 = []))
      fun _ part w => w.Covers (threadsHoldings part.2 ++ others) ∧ OrderlyThreads part.2 := by
  unfold complete
  simp only
  split
  · refine (cancelThreads_returns threads w others orderly.plain orderly.inside covers).bind
      (fun _ _ _ lost => ⟨Or.inl lost, .nil⟩) fun _ _ v covers => ?_
    have none_left : v.Covers (threadsHoldings [] ++ others) := by
      rw [threadsHoldings_nil]
      exact covers
    split <;> exact ⟨none_left, .nil, List.nil_sublist _, fun _ => rfl⟩
  · exact ⟨covers, orderly, List.Sublist.refl _, nofun⟩

theorem startThreads_covers {branches : List (List Template)}
    (enters : ∀ templates ∈ branches, ∀ address,
      (startedThread address templates).EntersKept services)
    (address : List Nat) (first : Nat) {started : List Thread} (join : Join)
    (orderly : OrderlyThreads started) (covers : w.Covers (threadsHoldings started ++ others)) :
    (startThreads services (threadsFrom address first branches) started join w).Ends
      (fun ended part w => w.Covers (threadsHoldings part.2 ++ others) ∧
        OrderlyThreads part.2 ∧ (ended = true → part.2 = []))
      fun _ part w => w.Covers (threadsHoldings part.2 ++ others) ∧ OrderlyThreads part.2 := by
  induction branches generalizing first started join w with
  | nil =>
    rw [threadsFrom, startThreads]
    exact ⟨covers, orderly, fun ended => absurd ended Bool.false_ne_true⟩
  | cons templates rest ih =>
    have rest_enters := fun ts mem => enters ts (List.mem_cons_of_mem templates mem)
    have rest_orderly := orderlyThreads_threadsFrom address (first + 1) rest
    have rest_none := threadsHoldings_threadsFrom address (first + 1) rest
    have entered := enters templates List.mem_cons_self (address ++ [first]) w
      (threadsHoldings started ++ others) True rfl rfl rfl (Block.tokens_ofTemplates templates)
      (fun _ => ⟨rfl, Block.hooksSucceed_ofTemplates templates⟩) (by
        have none : blocksHeld (templates.map Block.ofTemplate) = [] :=
          blocksHeld_ofTemplates templates
        simpa [startedThread, Execution.fresh, Sequence.fresh, none] using covers)
    rw [startThreads_next]
    refine entered.bind (fun _ e v kept => ⟨kept.covers.more fun h => ?_, ?_⟩) fun _ e v kept => ?_
    · simp only [List.count_append, count_threadsHoldings_append, count_threadsHoldings_cons,
        rest_none, List.count_nil]
      omega
    · exact orderly.append (.cons (kept.plain trivial) kept.orderly rest_orderly)
    · split
      · next finished =>
        have idle : e.isRunning = false := by simp [Sequence.isRunning, finished]
        have others_covers :
            v.Covers (threadsHoldings (started ++ threadsFrom address (first + 1) rest) ++ others) :=
          kept.covers.more fun h => by
            rw [(kept.plain trivial).idle idle]
            simp only [List.count_append, count_threadsHoldings_append, List.count_nil]
            omega
        refine (join.complete_covers (orderly.append rest_orderly) others_covers).bind
          (fun _ _ _ failed => failed) fun ended part u fine => ?_
        obtain ⟨counted, left⟩ := part
        obtain ⟨covers_u, left_orderly, sub, gone⟩ := fine
        cases ended with
        | true => exact ⟨covers_u, left_orderly, gone⟩
        | false =>
          refine ih rest_enters (first + 1) counted orderly (covers_u.more fun h => ?_)
          have le := count_threadsHoldings_le sub h
          simp only [List.count_append, count_threadsHoldings_append, rest_none, List.count_nil]
            at le ⊢
          omega
      · refine ih rest_enters (first + 1) join
          (orderly.append (.cons (kept.plain trivial) kept.orderly .nil))
          (kept.covers.more fun h => ?_)
        simp only [List.count_append, count_threadsHoldings_append, count_threadsHoldings_cons]
        omega

/-- A wait that is started holds its token. -/
theorem Block.arrive_sleep_covers {address : List Nat} {b : Block} {s : Sleep}
    (activity : b.activity = .sleep s) (token : b.tokens = [])
    (covers : w.Covers (b.held.map Holding.reminder ++ others)) :
    (Block.arrive services address b w).Ends
      (fun _ part w => w.Covers (part.1.holdings ++ others) ∧ part.1.hooks = b.hooks ∧ part.2 = [])
      fun _ part w => w.Covers (part.1.holdings ++ others) ∧ part.1.hooks = b.hooks ∧
        part.2 = [] := by
  have untaken : s.token = none := by
    simpa only [tokens, activity, Option.toList_eq_nil_iff] using token
  by_cases positive : 0 < s.value
  · rw [Block.arrive, activity]
    simp only [positive, if_true]
    have started : (s.start services address w).Ends
        (fun _ s v => v.Covers (s.holdings ++ (b.held.map Holding.reminder ++ others)))
        fun _ s v => v.Covers (s.holdings ++ (b.held.map Holding.reminder ++ others)) :=
      s.start_covers address untaken covers
    have holds : ∀ (s : Sleep) (v : World σ),
        v.Covers (s.holdings ++ (b.held.map Holding.reminder ++ others)) →
        v.Covers (({ b with activity := .sleep s } : Block).holdings ++ others) :=
      fun s v covers => covers.more fun h => by
        simp only [holdings, tokens, held, Sleep.holdings, List.count_append]
        omega
    refine (started.bind (fun _ _ _ covers => covers) fun _ s v covers => ?_).within
      (fun _ s v covers => ⟨holds s v covers, rfl, rfl⟩)
      fun leaves s v covers => ⟨holds s v covers, rfl, rfl⟩
    exact covers
  · rw [Block.arrive_elapsed services address w activity positive]
    refine ⟨covers.more fun h => ?_, rfl, rfl⟩
    simp [holdings, tokens, held, untaken]

/-- A group holds what the threads of its branches hold. -/
theorem Block.arrive_group_covers {address : List Nat} {b : Block} {join : Join}
    (activity : b.activity = .parallel join) (some_branch : join.branches ≠ [])
    (enters : ∀ templates ∈ join.branches, ∀ address,
      (startedThread address templates).EntersKept services)
    (covers : w.Covers (b.held.map Holding.reminder ++ others)) :
    (Block.arrive services address b w).Ends
      (fun leaves part w => w.Covers (part.1.holdings ++ (threadsHoldings part.2 ++ others)) ∧
        part.1.hooks = b.hooks ∧ OrderlyThreads part.2 ∧ (leaves = true → part.2 = []))
      fun _ part w => w.Covers (part.1.holdings ++ (threadsHoldings part.2 ++ others)) ∧
        part.1.hooks = b.hooks ∧ OrderlyThreads part.2 := by
  have moved : ∀ (j : Join) (threads : List Thread) (v : World σ),
      v.Covers (threadsHoldings threads ++ (b.held.map Holding.reminder ++ others)) →
      v.Covers (({ b with activity := .parallel j } : Block).holdings ++
        (threadsHoldings threads ++ others)) :=
    fun j threads v covers => covers.more fun h => by
      simp only [holdings, tokens, held, List.map_nil, List.count_append, List.count_nil]
      omega
  have opened : (w.noteOpened join.branches).Covers
      (threadsHoldings [] ++ (b.held.map Holding.reminder ++ others)) :=
    covers.noteOpened join.branches
  rw [Block.arrive_group services address w activity some_branch]
  exact (startThreads_covers enters address 0 join.opened .nil opened).within
    (fun _ part v failed => ⟨moved part.1 part.2 v failed.1, rfl, failed.2⟩)
    fun ended part v fine => ⟨moved part.1 part.2 v fine.1, rfl, fine.2⟩

/-- A block that has arrived, with its threads and the blocks that it puts after itself. -/
theorem Block.arrive_covers {address : List Nat} {b : Block} (token : b.tokens = [])
    (enters : ∀ join, b.activity = .parallel join → ∀ templates ∈ join.branches, ∀ address,
      (startedThread address templates).EntersKept services)
    (covers : w.Covers (b.held.map Holding.reminder ++ others)) :
    (Block.arrive services address b w).Ends
      (fun leaves part w => w.Covers (part.1.holdings ++ (threadsHoldings part.2 ++
          ((blocksHeld b.pass).map Holding.reminder ++ others))) ∧
        part.1.hooks = b.hooks ∧ OrderlyThreads part.2 ∧
        if leaves then part.2 = [] else b.pass = [])
      fun _ part w => w.Covers (part.1.holdings ++ (threadsHoldings part.2 ++ others)) ∧
        part.1.hooks = b.hooks ∧ OrderlyThreads part.2 := by
  cases activity : b.activity with
  | task | condition | asked =>
    rw [Block.arrive, activity]
    have no_pass : b.pass = [] := by simp only [pass, activity]
    refine ⟨?_, rfl, .nil, no_pass⟩
    rw [no_pass]
    rwa [holdings_of_waiting token]
  | counted remaining entered body =>
    rw [Block.arrive_counted services address w activity]
    split
    · next more =>
      refine ⟨(covers.noteBuilt body).more fun h => ?_, rfl, .nil, rfl⟩
      simp only [pass, activity, more, if_true, blocksHeld_append, blocksHeld_ofTemplates,
        blocksHeld_cons, blocksHeld_nil, holdings, tokens, held, successor, List.flatMap_nil,
        List.append_nil, List.nil_append, Option.toList_none, List.map_append, List.map_nil,
        List.count_append]
      omega
    · next spent =>
      refine ⟨?_, rfl, .nil, rfl⟩
      simp only [pass, activity, spent, if_false]
      exact covers.more fun h => Nat.le_of_eq (by simp [holdings, tokens, held, threadsHoldings])
  | sleep s =>
    have no_pass : b.pass = [] := by simp only [pass, activity]
    rw [no_pass]
    refine (Block.arrive_sleep_covers activity token covers).mono ?_ ?_
    · rintro _ ⟨arrived, threads⟩ v ⟨covers, hooks, rfl⟩
      exact ⟨covers, hooks, .nil⟩
    · rintro leaves ⟨arrived, threads⟩ v ⟨covers, hooks, rfl⟩
      exact ⟨covers, hooks, .nil, by cases leaves <;> rfl⟩
  | parallel join =>
    have no_pass : b.pass = [] := by simp only [pass, activity]
    rw [no_pass]
    by_cases none : join.branches = []
    · rw [Block.arrive_branchless services address w activity none]
      refine ⟨covers.more fun h => ?_, rfl, .nil, rfl⟩
      simp [holdings, tokens, held, threadsHoldings]
    · refine (Block.arrive_group_covers activity none (enters join activity) covers).mono ?_ ?_
      · exact fun _ _ _ failed => failed
      · rintro leaves part v ⟨covers, hooks, orderly, gone⟩
        refine ⟨covers, hooks, orderly, ?_⟩
        cases leaves with
        | true => exact gone rfl
        | false => rfl

/-- Ending a sequence gives back its own reminder. -/
theorem Sequence.finish_covers (s : Sequence)
    (covers : w.Covers (s.handle.toList.map Holding.reminder ++ others)) :
    let ended (line : Sequence) (w : World σ) := ∃ handle,
      line = { s with finished := true, handle } ∧ (s.handle = none → handle = none) ∧
        w.Covers (handle.toList.map Holding.reminder ++ others)
    (s.finish services w).Ends (fun _ => ended) fun _ => ended := by
  unfold finish
  split
  · next finished => exact ⟨s.handle, by rw [← finished], id, covers⟩
  · refine (unregister_covers { s with finished := true } covers).bind
      (fun _ line v failed => ⟨none, failed.1, fun _ => rfl, Or.inl failed.2⟩) fun _ line v fine => ?_
    obtain ⟨rfl, covers⟩ := fine
    exact ⟨none, rfl, fun _ => rfl, noteFinished_covers covers⟩

namespace Execution

variable {e : Execution} {b : Block} {rest ahead : List Block} {plain : Prop}

/-- A block with the same hooks takes the place of the current one, and others come after it. -/
theorem quiet_of_hooks {handle : Option Nat} {b' : Block} {after : List Block}
    (quiet : plain → handle = none ∧ ∀ c ∈ b :: rest, c.HooksSucceed) (same : b'.hooks = b.hooks)
    (after_quiet : ∀ c ∈ after, c.HooksSucceed) :
    plain → handle = none ∧ ∀ c ∈ b' :: (after ++ rest), c.HooksSucceed := by
  intro is_plain
  obtain ⟨unhandled, hooks⟩ := quiet is_plain
  obtain ⟨here, later⟩ := List.forall_mem_cons.mp hooks
  refine ⟨unhandled, List.forall_mem_cons.mpr ⟨fun hook mem => ?_,
    List.forall_mem_append.mpr ⟨after_quiet, later⟩⟩⟩
  rw [same] at mem
  exact here hook mem

/-- The current block leaves, and the blocks ahead are entered. -/
theorem leave_keeps_of (running : e.isRunning = true) (behind : blocksHeld e.behind = [])
    (waiting : ∀ c ∈ ahead, c.tokens = [])
    (quiet : plain → e.handle = none ∧ ∀ c ∈ b :: ahead, c.HooksSucceed)
    (goes_on : ∀ left, EntersKept services ⟨e.advance left ahead, []⟩)
    (covers : w.Covers (b.holdings ++
      ((e.handle.toList ++ blocksHeld ahead).map Holding.reminder ++ others))) :
    ((b.leave services w).bind
      (fun left => (⟨{ e.toSequence with ahead := left :: ahead }, []⟩ : Execution))
      fun _ left w => Execution.enter services ⟨e.advance left ahead, []⟩
        (e.noteLeft left w)).Keeps plain others := by
  have ages := b.leave_ages services w
  generalize leaving : b.leave services w = o at ages ⊢
  have left_covers : o.GivesBack b.HooksSucceed Block.holdings
      ((e.handle.toList ++ blocksHeld ahead).map Holding.reminder ++ others) := by
    rw [← leaving]
    exact b.leave_givesBack covers
  obtain ⟨result, left, v⟩ := o
  cases result with
  | error error =>
    refine kept_of_block rfl running behind waiting .nil (fun is_plain => ?_) left_covers.1
    obtain ⟨handle, hooks⟩ := quiet is_plain
    have left_quiet : left.HooksSucceed := fun hook mem =>
      hooks b List.mem_cons_self hook (ages.hooks.subset mem)
    exact ⟨handle, List.forall_mem_cons.mpr ⟨left_quiet, (List.forall_mem_cons.mp hooks).2⟩⟩
  | ok _ =>
    obtain ⟨nothing, covers_v⟩ := left_covers
    have held : left.held = [] := by
      rw [Block.holdings, List.append_eq_nil_iff, List.map_eq_nil_iff] at nothing
      exact nothing.1
    refine goes_on left _ others plain running rfl ?_ waiting (fun is_plain => ?_)
      (Sequence.noteLeft_covers covers_v)
    · show blocksHeld (left :: e.behind) = []
      rw [blocksHeld_cons, held, behind, List.append_nil]
    · obtain ⟨handle, hooks⟩ := quiet is_plain
      exact ⟨handle, (List.forall_mem_cons.mp hooks).2⟩

/-- An execution that has nothing ahead. -/
theorem kept_of_end (now : e.ahead = []) (behind : blocksHeld e.behind = [])
    (none : e.threads = []) (quiet : plain → e.handle = Option.none)
    (covers : w.Covers (e.handle.toList.map Holding.reminder ++ others)) :
    Kept plain others e w := by
  have holdings : e.holdings = e.handle.toList.map Holding.reminder := by
    rw [holdings_nil now, behind, none, threadsHeld_nil, threadsTokens_nil]
    simp only [List.append_nil, List.map_nil]
  refine ⟨?_, orderly_iff.mpr ⟨behind, ?_, ?_⟩, fun is_plain => ⟨quiet is_plain, ?_, fun _ => ?_⟩⟩
  · rwa [holdings]
  · rw [now]
    exact List.forall_mem_nil _
  · rw [none]
    exact .nil
  · rw [now]
    exact List.forall_mem_nil _
  · rw [holdings, quiet is_plain]
    rfl

theorem enter_keeps (e : Execution) : e.EntersKept services := by
  induction e using enter_induction with
  | nil e now =>
    intro w others plain running none behind waiting quiet covers
    rw [now, blocksHeld_nil, List.append_nil] at covers
    have kept : ∀ handle (v : World σ), (e.handle = Option.none → handle = Option.none) →
        v.Covers (handle.toList.map Holding.reminder ++ others) →
        Kept plain others ⟨{ e.toSequence with finished := true, handle }, []⟩ v :=
      fun handle v same covers =>
        kept_of_end now behind rfl (fun is_plain => same (quiet is_plain).1) covers
    rw [enter_end services w now]
    refine (e.toSequence.finish_covers covers).within (fun _ line v failed => ?_)
      fun _ line v fine => ?_
    · obtain ⟨handle, rfl, same, covers⟩ := failed
      exact kept handle v same covers
    · obtain ⟨handle, rfl, same, covers⟩ := fine
      exact kept handle v same covers
  | cons e b rest now goes_on starts =>
    intro w others plain running none behind waiting quiet covers
    rw [now] at waiting quiet covers
    obtain ⟨token, waiting⟩ := List.forall_mem_cons.mp waiting
    have regrouped : w.Covers (b.held.map Holding.reminder ++
        ((e.handle.toList ++ blocksHeld rest).map Holding.reminder ++ others)) :=
      covers.more fun h => by
        simp only [blocksHeld_cons, List.map_append, List.count_append]
        omega
    have registering : Answered _ _ (b.register services w) := b.register_covers regrouped
    rcases registered : b.register services w with ⟨answer, v⟩
    rw [registered] at registering
    cases answer with
    | error error =>
      rw [enter_refused services now registered]
      refine kept_of_block now running behind waiting (none ▸ .nil) quiet ?_
      rw [none]
      rwa [Block.holdings_of_waiting token]
    | ok handle =>
      rw [enter_block services now registered]
      refine (Block.arrive_covers (b := { b with handle }) token starts registering).bind
        (fun _ part u failed => ?_) fun leaves part u fine => ?_
      · obtain ⟨arrived, threads⟩ := part
        obtain ⟨covers_u, hooks, orderly⟩ := failed
        exact kept_of_block rfl running behind waiting orderly
          (quiet_of_hooks quiet hooks (List.forall_mem_nil _)) covers_u
      · obtain ⟨arrived, threads⟩ := part
        obtain ⟨covers_u, hooks, orderly, gone⟩ := fine
        cases leaves with
        | false =>
          have no_pass : ({ b with handle } : Block).pass = [] := gone
          rw [no_pass] at covers_u
          exact kept_of_block rfl running behind waiting orderly
            (quiet_of_hooks quiet hooks (List.forall_mem_nil _)) (Sequence.noteEntered_covers covers_u)
        | true =>
          have pass_waiting := Block.tokens_pass { b with handle }
          refine leave_keeps_of running behind
            (List.forall_mem_append.mpr ⟨pass_waiting, waiting⟩)
            (quiet_of_hooks quiet hooks (Block.hooksSucceed_pass _)) (fun left => goes_on left handle)
            ((Sequence.noteEntered_covers covers_u).more fun h => ?_)
          have gone : threads = [] := gone
          rw [gone]
          simp only [threadsHoldings, threadsHeld_nil, threadsTokens_nil, blocksHeld_append,
            List.map_append, List.map_nil, List.count_append, List.count_nil]
          omega

end Execution

end Stepwise
