import Stepwise.Proofs.Delivery
import Stepwise.Proofs.Pausing.Entering

/-!
# Tokens and events

An event leaves the tokens where they are unless a block leaves. A block that comes after one that
has left has none, and neither has a group.
-/

namespace Stepwise

variable {σ : Type} {book : σ → ReminderBook} {services : Services σ} {hand : Handed}
  {tokens : List Nat} {w : World σ}

namespace Block

theorem tokens_handOn (b : Block) {blocks : List Block} (none : ∀ c ∈ blocks, c.tokens = []) :
    ∀ c ∈ (b.handOn blocks).2, c.tokens = [] := by
  unfold handOn
  split
  · next id last _ ends =>
    intro c mem
    rcases List.mem_append.mp mem with front | back
    · exact none c (List.dropLast_subset blocks front)
    · rw [List.mem_singleton.mp back]
      exact none last (List.mem_of_getLast? ends)
  · exact none

/-- A block that has taken an event has the token that it had, and what comes after it has none. -/
def HandsNothingOn (b : Block) (book : σ → ReminderBook) (hand : Handed) (tokens : List Nat)
    (o : Outcome σ Block Reaction) : Prop :=
  o.Ends (fun reaction b' w => World.Accounts book hand w tokens ∧ b'.tokens = b.tokens ∧
      b'.HoldsToken ∧ ∀ c ∈ reaction.after, c.tokens = [])
    fun _ _ _ => True

theorem choose_accounts (b : Block) (branch : List Template) (holds : b.HoldsToken)
    (accounts : w.Accounts book hand tokens) :
    b.HandsNothingOn book hand tokens (b.choose branch w) := by
  have same := b.handOn_activity (branch.map ofTemplate)
  rw [choose_eq]
  refine ⟨accounts.noteBuilt branch, ?_, ?_, b.tokens_handOn (tokens_ofTemplates branch)⟩
  · simp only [Block.tokens, same]
  · simpa only [HoldsToken, same] using holds

theorem answer_accounts (b : Block) (loop : LoopKind) (body : List Template) (yes : Bool)
    (holds : b.HoldsToken) (accounts : w.Accounts book hand tokens) :
    b.HandsNothingOn book hand tokens (b.answer loop body yes w) := by
  unfold answer
  split
  · refine ⟨accounts.noteBuilt body, rfl, holds, fun c mem => ?_⟩
    rcases List.mem_append.mp mem with inside | next
    · exact tokens_ofTemplates body c inside
    · rw [List.mem_singleton.mp next]
      rfl
  · exact ⟨accounts, rfl, holds, List.forall_mem_nil _⟩

theorem react_accounts (keeps : services.KeepsBook book) (b : Block) (event : Event)
    (holds : b.HoldsToken) (accounts : w.Accounts book hand tokens) :
    b.HandsNothingOn book hand tokens (b.react services event w) := by
  -- The token of a wait stays with it until it leaves, also when it is skipped.
  have waits_on : ∀ {v : World σ} {s : Sleep} (remaining : Binary64) (reaction : Reaction),
      b.activity = .sleep s → reaction.after = [] → v.Accounts book hand tokens →
      b.HandsNothingOn book hand tokens
        ⟨.ok reaction, { b with activity := .sleep { s with remaining } }, v⟩ := by
    intro v s remaining reaction activity none accounts
    unfold HoldsToken at holds
    simp only [activity] at holds
    refine ⟨accounts, ?_, holds, ?_⟩
    · simp only [Block.tokens, activity]
    · rw [none]
      exact List.forall_mem_nil _
  unfold react
  split
  · exact ⟨accounts, rfl, holds, List.forall_mem_nil _⟩
  · exact b.choose_accounts _ holds accounts
  · exact b.choose_accounts _ holds accounts
  · exact b.answer_accounts _ _ true holds accounts
  · exact b.answer_accounts _ _ false holds accounts
  · next activity => exact waits_on _ .stay activity rfl accounts
  · next activity => exact waits_on .zero (.leave []) activity rfl accounts
  · next activity =>
    exact (World.forceFinish_accounts keeps accounts).elim
      (fun _ _ accounts => waits_on .zero (.leave []) activity rfl accounts) fun _ _ _ => trivial
  · exact ⟨accounts.passOver _, rfl, holds, List.forall_mem_nil _⟩

end Block

namespace Execution

variable {e : Execution} {b : Block} {rest : List Block}

theorem leave_accounts (keeps : services.KeepsBook book) (running : e.isRunning = true)
    (pause : e.pause = .empty) (rests : allRest e.threads) {ahead : List Block}
    (none : ∀ c ∈ ahead, c.tokens = [])
    (accounts : w.Accounts book hand (b.tokens ++ (threadsTokens e.threads ++ tokens))) :
    LeftAtRest book hand tokens (e.leave services b ahead w) := by
  have regrouped : w.Accounts book hand (threadsTokens e.threads ++ (b.tokens ++ tokens)) := by
    refine accounts.congr ?_
    rw [← List.append_assoc, ← List.append_assoc]
    exact List.perm_append_comm.append_right tokens
  exact (cancelThreads_accounts keeps rests regrouped).bind_yields fun _ _ _ accounts =>
    leave_accounts_of keeps running pause none (fun _ => enter_accounts keeps _) accounts

/-- A thread `x` has taken an event, and now its group goes on. -/
theorem afterThread_accounts (keeps : services.KeepsBook book) (running : e.isRunning = true)
    (pause : e.pause = .empty) (now : e.ahead = b :: rest) {join : Join}
    (group : b.join? = some join) (none : ∀ c ∈ rest, c.tokens = [])
    {before after : List Thread} (t : Thread) {x : Execution} (x_rests : x.Rests)
    (others : allRest (before ++ after))
    (accounts : w.Accounts book hand
      (x.sleepTokens ++ (threadsTokens (before ++ after) ++ tokens))) :
    LeftAtRest book hand tokens
      (e.afterThread services b rest join before after { t with execution := x } w) := by
  unfold afterThread
  split
  · next finished =>
    have idle : x.isRunning = false := by
      have finished : x.finished = true := finished
      simp [Sequence.isRunning, finished]
    rw [x_rests.sleepTokens_idle idle] at accounts
    refine (join.complete_accounts keeps others accounts).bind_yields fun ended part v completed => ?_
    obtain ⟨join, threads⟩ := part
    obtain ⟨accounts, rests, -⟩ := completed
    cases ended with
    | false =>
      refine ⟨?_, rests_running running pause rfl trivial none rests⟩
      rw [sleepTokens_cons rfl]
      exact accounts
    | true =>
      refine leave_accounts (e := ⟨{ e.toSequence with
        ahead := { b with activity := .parallel join } :: rest }, threads⟩) keeps running pause
        rests none ?_
      exact accounts
  · have activity := Block.activity_of_join? group
    have holds : b.HoldsToken := by
      unfold Block.HoldsToken
      rw [activity]
      trivial
    have no_token : b.tokens = [] := by rw [Block.tokens, activity]
    obtain ⟨before_rest, after_rest⟩ := (allRest_append _ _).mp others
    refine ⟨accounts.congr ?_, rests_running running pause now holds none
      ((allRest_append _ _).mpr ⟨before_rest, (allRest_cons _ _).mpr ⟨x_rests, after_rest⟩⟩)⟩
    have regrouped : sleepTokens ⟨e.toSequence, before ++ { t with execution := x } :: after⟩ =
        b.tokens ++ threadsTokens (before ++ { t with execution := x } :: after) :=
      sleepTokens_cons now
    rw [regrouped, no_token, List.nil_append, ← List.append_assoc]
    exact (threadsTokens_perm before after { t with execution := x }).symm.append_right tokens

theorem dispatch_accounts (keeps : services.KeepsBook book) (e : Execution) (event : Event)
    (path : List Nat) (rests : e.Rests) (accounts : w.Accounts book hand (e.sleepTokens ++ tokens)) :
    LeftAtRest book hand tokens (e.dispatch services event path w) := by
  induction depth : path.length using Nat.strongRecOn generalizing path e tokens with
  | ind n ih =>
  subst depth
  obtain ⟨line_rests, -, all_rest⟩ := (rests_iff e).mp rests
  refine dispatch_cases path (fun notice => ⟨accounts.passOver notice, rests⟩) ?here ?thread
  case here =>
    intro b rest running now
    obtain ⟨holds, none⟩ := line_rests.at_cons now
    simp only [running, if_true] at holds
    rw [sleepTokens_cons now, List.append_assoc] at accounts
    refine (b.react_accounts keeps event holds accounts).bind_yields fun reaction b' v reacted => ?_
    obtain ⟨accounts, same, holds, after_none⟩ := reacted
    rw [← same] at accounts
    cases reaction with
    | stay =>
      refine ⟨?_, rests_running running line_rests.1 rfl holds none all_rest⟩
      rw [sleepTokens_cons rfl, List.append_assoc]
      exact accounts
    | leave after =>
      refine leave_accounts keeps running line_rests.1 all_rest (fun c mem => ?_) accounts
      rcases List.mem_append.mp mem with next | behind
      · exact after_none c next
      · exact none c behind
  case thread =>
    intro b rest join before t after further running now group threads less
    obtain ⟨-, none⟩ := line_rests.at_cons now
    rw [threads, allRest_append, allRest_cons] at all_rest
    obtain ⟨before_rest, t_rests, after_rest⟩ := all_rest
    have no_token : b.tokens = [] := by rw [Block.tokens, Block.activity_of_join? group]
    have regrouped : w.Accounts book hand
        (t.execution.sleepTokens ++ (threadsTokens (before ++ after) ++ tokens)) := by
      refine accounts.congr ?_
      rw [sleepTokens_cons now, no_token, threads, List.nil_append, ← List.append_assoc]
      exact (threadsTokens_perm before after t).append_right tokens
    refine (ih _ less t.execution further t_rests regrouped rfl).bind_yields
      fun _ x v delivered => ?_
    exact afterThread_accounts keeps running line_rests.1 now group none t delivered.2
      ((allRest_append _ _).mpr ⟨before_rest, after_rest⟩) delivered.1

end Execution

end Stepwise
