import Stepwise.Proofs.Entering
import Stepwise.Proofs.Monitor.Leaving
import Stepwise.Proofs.Pausing.Leaving

/-!
# Taking tokens

A silent wait takes a token when it is entered, unless it is over before it starts. Blocks and
threads that are new have none, so a sequence is entered with no token in it and is at rest when its
next block waits for an event.
-/

namespace Stepwise

variable {σ : Type}

namespace Block

theorem tokens_ofTemplate (t : Template) : (ofTemplate t).tokens = [] := by
  obtain ⟨kind, id, image, reminder⟩ := t
  cases kind <;> rfl

theorem tokens_ofTemplates (ts : List Template) : ∀ b ∈ ts.map ofTemplate, b.tokens = [] := by
  intro b mem
  obtain ⟨t, -, rfl⟩ := List.mem_map.mp mem
  exact tokens_ofTemplate t

theorem tokens_pass (b : Block) : ∀ c ∈ b.pass, c.tokens = [] := by
  unfold pass
  split
  · split
    · intro c mem
      rcases List.mem_append.mp mem with inside | next
      · exact tokens_ofTemplates _ c inside
      · rw [List.mem_singleton.mp next]
        rfl
    · exact List.forall_mem_nil _
  · exact List.forall_mem_nil _

end Block

/-- A sequence that was made and not started. -/
theorem Execution.rests_fresh (description : Option String) (reminder : Option Reminder)
    (address : List Nat) {blocks : List Block} (none : ∀ b ∈ blocks, b.tokens = []) :
    (fresh description reminder address blocks).Rests := by
  refine ⟨⟨rfl, ?_⟩, fun _ => rfl, trivial⟩
  cases blocks with
  | nil => trivial
  | cons b rest =>
    exact ⟨none b List.mem_cons_self, fun c mem => none c (List.mem_cons_of_mem b mem)⟩

theorem allRest_threadsFrom (address : List Nat) (first : Nat) (branches : List (List Template)) :
    allRest (threadsFrom address first branches) := by
  induction branches generalizing first with
  | nil => trivial
  | cons templates rest ih =>
    exact ⟨Execution.rests_fresh _ _ _ (Block.tokens_ofTemplates templates), ih (first + 1)⟩

@[simp]
theorem threadsTokens_threadsFrom (address : List Nat) (first : Nat)
    (branches : List (List Template)) : threadsTokens (threadsFrom address first branches) = [] := by
  induction branches generalizing first with
  | nil => rfl
  | cons templates rest ih =>
    have rests := Execution.rests_fresh none none (address ++ [first])
      (Block.tokens_ofTemplates templates)
    rw [threadsFrom, threadsTokens_cons, ih, rests.sleepTokens_idle rfl, List.nil_append]

/-- The execution runs and no part of it holds a token. -/
structure Execution.Clear (e : Execution) : Prop where
  running : e.isRunning = true
  pause : e.pause = .empty
  blocks : ∀ b ∈ e.ahead, b.tokens = []

theorem Execution.clear_startedThread (address : List Nat) (templates : List Template) :
    (startedThread address templates).Clear :=
  ⟨rfl, rfl, Block.tokens_ofTemplates templates⟩

/-- What is left of an execution rests, and its tokens are accounted for along with these. -/
def Execution.LeftAtRest (book : σ → ReminderBook) (hand : Handed) (tokens : List Nat)
    (o : Outcome σ Execution Unit) : Prop :=
  o.Ends (fun _ e w => World.Accounts book hand w (e.sleepTokens ++ tokens) ∧ e.Rests)
    fun _ _ _ => True

/-- Entering the execution takes the tokens that it then holds. -/
def Execution.EntersAccounted (services : Services σ) (book : σ → ReminderBook) (e : Execution) :
    Prop :=
  ∀ {hand : Handed} {w : World σ} {tokens : List Nat}, e.Clear → w.Accounts book hand tokens →
    LeftAtRest book hand tokens (e.enter services w)

variable {book : σ → ReminderBook} {services : Services σ} (keeps : services.KeepsBook book)
  {hand : Handed} {tokens : List Nat} {w : World σ}
include keeps

theorem Sleep.start_accounts (s : Sleep) (address : List Nat) (none : s.token = none)
    (accounts : w.Accounts book hand tokens) :
    (s.start services address w).Yields fun _ s' w =>
      World.Accounts book hand w (s'.token.toList ++ tokens) ∧ s'.token.isSome = s'.silent := by
  have countdown : ∀ {tokens : List Nat} {v : World σ}, v.Accounts book hand tokens →
      Answered (fun _ w => World.Accounts book hand w tokens) (fun _ _ => True)
        (v.startCountdown services s.value s.unit address) := fun accounts =>
    World.startCountdown_accounts keeps accounts s.value s.unit address
  unfold start
  cases silent : s.silent with
  | true =>
    have requested : Answered (fun token v => World.Accounts book hand v (token :: tokens))
        (fun _ _ => True) (w.requestPause services) :=
      World.requestPause_accounts keeps accounts PauseRequests.Accounts.take
    simp only [if_true]
    refine requested.elim (fun token v accounts => ?_) fun _ _ _ => trivial
    simp only
    exact (countdown accounts).elim (fun _ _ accounts => ⟨accounts, rfl⟩) fun _ _ _ => trivial
  | false =>
    simp only [Bool.false_eq_true, if_false, none]
    exact (countdown accounts).elim (fun _ _ accounts => ⟨accounts, rfl⟩) fun _ _ _ => trivial

theorem startThreads_accounts {branches : List (List Template)}
    (enters : ∀ templates ∈ branches, ∀ address,
      (startedThread address templates).EntersAccounted services book)
    (address : List Nat) (first : Nat) {started : List Thread} {join : Join}
    (undone : join.done = false) (rests : allRest started)
    (accounts : w.Accounts book hand (threadsTokens started ++ tokens)) :
    (startThreads services (threadsFrom address first branches) started join w).Yields
      fun ended part w => World.Accounts book hand w (threadsTokens part.2 ++ tokens) ∧
        allRest part.2 ∧ (ended = true → part.2 = []) := by
  induction branches generalizing first started join w with
  | nil =>
    rw [threadsFrom, startThreads]
    exact ⟨accounts, rests, fun ended => absurd ended Bool.false_ne_true⟩
  | cons templates rest ih =>
    have rest_enters := fun ts mem => enters ts (List.mem_cons_of_mem templates mem)
    rw [startThreads_next]
    have entered := enters templates List.mem_cons_self (address ++ [first])
      (Execution.clear_startedThread _ _) accounts
    refine entered.bind_yields fun _ e v entered => ?_
    obtain ⟨accounts, e_rests⟩ := entered
    split
    · next finished =>
      have idle : e.isRunning = false := by simp [Sequence.isRunning, finished]
      have others_accounts : World.Accounts book hand v
          (threadsTokens (started ++ threadsFrom address (first + 1) rest) ++ tokens) := by
        simpa [e_rests.sleepTokens_idle idle] using accounts
      have others_rest := (allRest_append _ _).mpr
        ⟨rests, allRest_threadsFrom address (first + 1) rest⟩
      refine ((join.complete_accounts keeps others_rest others_accounts).and
        (join.complete_undone services undone _ v)).bind_yields fun ended part u completed => ?_
      obtain ⟨counted, left⟩ := part
      obtain ⟨left_accounts, goes_on⟩ := completed
      cases ended with
      | true => exact left_accounts
      | false =>
        obtain ⟨undone', rfl⟩ := goes_on rfl
        refine ih rest_enters (first + 1) undone' rests ?_
        simpa using left_accounts.1
    · refine ih rest_enters (first + 1) undone
        ((allRest_append _ _).mpr ⟨rests, e_rests, trivial⟩) (accounts.congr ?_)
      rw [threadsTokens_append, threadsTokens_cons, threadsTokens_nil, List.append_nil,
        ← List.append_assoc]
      exact List.perm_append_comm.append_right tokens

/-- A block that has arrived, with its threads. -/
theorem Block.arrive_accounts (address : List Nat) {b : Block} (none : b.tokens = [])
    (enters : ∀ join, b.activity = .parallel join → ∀ templates ∈ join.branches, ∀ address,
      (startedThread address templates).EntersAccounted services book)
    (accounts : w.Accounts book hand tokens) :
    (Block.arrive services address b w).Yields fun leaves part w =>
      World.Accounts book hand w (part.1.tokens ++ (threadsTokens part.2 ++ tokens)) ∧
        allRest part.2 ∧ if leaves then part.2 = [] else part.1.HoldsToken := by
  unfold Block.tokens at none
  cases activity : b.activity with
  | task | condition | asked =>
    rw [Block.arrive, activity]
    refine ⟨?_, trivial, ?_⟩
    · rw [Block.tokens, activity]
      exact accounts
    · simp only [HoldsToken, activity, Bool.false_eq_true, if_false]
  | counted remaining entered body =>
    rw [Block.arrive_counted services address w activity]
    split
    · exact ⟨accounts.noteBuilt body, trivial, rfl⟩
    · exact ⟨accounts, trivial, rfl⟩
  | sleep s =>
    simp only [activity, Option.toList_eq_nil_iff] at none
    by_cases positive : 0 < s.value
    · rw [Block.arrive, activity]
      simp only [positive, if_true]
      have waits : ((s.start services address w).bind (fun s => s)
          fun _ s w => (⟨.ok false, s, w⟩ : Outcome σ Sleep Bool)).Yields fun leaves s' w =>
            leaves = false ∧ World.Accounts book hand w (s'.token.toList ++ tokens) ∧
              s'.token.isSome = s'.silent :=
        (s.start_accounts keeps address none accounts).bind_yields fun _ _ _ started =>
          ⟨rfl, started⟩
      refine waits.within_yields fun leaves s' v started => ?_
      obtain ⟨rfl, accounts, holds⟩ := started
      exact ⟨accounts, trivial, holds⟩
    · rw [Block.arrive_elapsed services address w activity positive]
      refine ⟨?_, trivial, rfl⟩
      rw [Block.tokens, none]
      exact accounts
  | parallel join =>
    by_cases branchless : join.branches = []
    · rw [Block.arrive_branchless services address w activity branchless]
      exact ⟨accounts, trivial, rfl⟩
    · rw [Block.arrive_group services address w activity branchless]
      have opened : World.Accounts book hand (w.noteOpened join.branches)
          (threadsTokens [] ++ tokens) := accounts.noteOpened join.branches
      have none_started : allRest [] := trivial
      refine (startThreads_accounts keeps (enters join activity) address 0 rfl none_started
        opened).within_yields fun ended part v started => ?_
      obtain ⟨accounts, rests, ended_empty⟩ := started
      refine ⟨accounts, rests, ?_⟩
      cases ended with
      | true => exact ended_empty rfl
      | false => trivial

theorem Sequence.finish_accounts (s : Sequence) (unfinished : s.finished = false)
    (accounts : w.Accounts book hand tokens) :
    (s.finish services w).Yields fun _ s' w =>
      s' = { s with finished := true, handle := none } ∧ World.Accounts book hand w tokens := by
  unfold finish
  rw [unfinished]
  simp only [Bool.false_eq_true, if_false]
  refine (unregister_accounts keeps { s with finished := true } accounts).bind_yields
    fun _ s' v given_back => ?_
  have aside : Entry.IsAside (.finished s'.address) := trivial
  exact ⟨given_back.1, given_back.2.note aside⟩

namespace Execution

/-- The current block leaves, and the blocks ahead are entered. -/
theorem leave_accounts_of {e : Execution} (running : e.isRunning = true) (pause : e.pause = .empty)
    {b : Block} {ahead : List Block} (none : ∀ c ∈ ahead, c.tokens = [])
    (goes_on : ∀ left, EntersAccounted services book ⟨e.advance left ahead, []⟩)
    (accounts : w.Accounts book hand (b.tokens ++ tokens)) :
    LeftAtRest book hand tokens ((b.leave services w).bind
      (fun left => (⟨{ e.toSequence with ahead := left :: ahead }, []⟩ : Execution))
      fun _ left w =>
        Execution.enter services ⟨e.advance left ahead, []⟩ (e.noteLeft left w)) := by
  refine (b.leave_accounts keeps accounts).bind_yields fun _ left v accounts => ?_
  have aside : Entry.IsAside (.left e.address e.cursor left.shownText) := trivial
  exact goes_on left ⟨running, pause, none⟩ (accounts.note aside)

theorem enter_accounts (e : Execution) : e.EntersAccounted services book := by
  induction e using enter_induction with
  | nil e now =>
    intro hand w tokens clear accounts
    have running := clear.running
    simp only [Sequence.isRunning, Bool.and_eq_true, Bool.not_eq_true'] at running
    rw [enter_end services w now]
    refine (e.toSequence.finish_accounts keeps running.1.2 accounts).within_yields
      fun _ line v ended => ?_
    obtain ⟨rfl, accounts⟩ := ended
    refine ⟨?_, ⟨clear.pause, ?_⟩, fun _ => rfl, trivial⟩
    · simpa [sleepTokens_eq, Sequence.current?, now] using accounts
    · simp only [now]
  | cons e b rest now goes_on starts =>
    intro hand w tokens clear accounts
    have blocks : b.tokens = [] ∧ ∀ c ∈ rest, c.tokens = [] := by
      simpa [now] using clear.blocks
    have registering := b.register_accounts keeps accounts
    rcases registered : b.register services w with ⟨answer, v⟩
    rw [registered] at registering
    cases answer with
    | error error =>
      rw [enter_refused services now registered]
      trivial
    | ok handle =>
      rw [enter_block services now registered]
      refine (Block.arrive_accounts (b := { b with handle }) keeps e.address blocks.1 starts
        registering).bind_yields fun leaves part u arrived => ?_
      obtain ⟨arrived, threads⟩ := part
      obtain ⟨accounts, rests, arrival⟩ := arrived
      have aside : Entry.IsAside (.entered e.address e.cursor arrived.shownText) := trivial
      have accounts := accounts.note aside
      cases leaves with
      | false =>
        refine ⟨?_, rests_running clear.running clear.pause rfl arrival blocks.2 rests⟩
        rwa [sleepTokens_cons rfl, List.append_assoc]
      | true =>
        obtain rfl : threads = [] := arrival
        refine leave_accounts_of keeps clear.running clear.pause ?_
          (fun left => goes_on left handle) accounts
        intro c mem
        rcases List.mem_append.mp mem with next | behind
        · exact Block.tokens_pass _ c next
        · exact blocks.2 c behind

end Execution

end Stepwise
