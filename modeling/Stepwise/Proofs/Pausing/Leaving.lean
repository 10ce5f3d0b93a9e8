import Stepwise.Execution.Cancelling
import Stepwise.Proofs.Pausing

/-!
# Giving tokens back

Of the blocks of a running sequence only the current one may hold a token, and it does if it is a
silent wait. It gives the token back when it leaves or when its sequence is cancelled, whether it
has been waited for or not.
-/

namespace Stepwise

variable {σ : Type}

namespace Block

def tokens (b : Block) : List Nat :=
  match b.activity with
  | .sleep s => s.token.toList
  | _ => []

/-- A wait holds a token if it is silent. -/
def HoldsToken (b : Block) : Prop :=
  match b.activity with
  | .sleep s => s.token.isSome = s.silent
  | _ => True

end Block

mutual

/-- The tokens of the current waits of an execution and of all threads in it. -/
def Execution.sleepTokens : Execution → List Nat
  | ⟨line, threads⟩ => line.current?.toList.flatMap Block.tokens ++ threadsTokens threads

def threadsTokens : List Thread → List Nat
  | [] => []
  | ⟨_, execution⟩ :: rest => execution.sleepTokens ++ threadsTokens rest

end

/-- No block holds a token but the current one of a sequence that runs, and no pause request is kept
with the sequence. -/
def Sequence.Rests (s : Sequence) : Prop :=
  s.pause = .empty ∧
    match s.ahead with
    | [] => True
    | b :: rest => (if s.isRunning then b.HoldsToken else b.tokens = []) ∧ ∀ c ∈ rest, c.tokens = []

mutual

/-- All sequences of an execution hold their tokens where they should, and only one that runs has
threads. -/
def Execution.Rests : Execution → Prop
  | ⟨line, threads⟩ => line.Rests ∧ (line.isRunning = false → threads = []) ∧ allRest threads

def allRest : List Thread → Prop
  | [] => True
  | ⟨_, execution⟩ :: rest => execution.Rests ∧ allRest rest

end

theorem Execution.sleepTokens_eq (e : Execution) :
    e.sleepTokens = e.current?.toList.flatMap Block.tokens ++ threadsTokens e.threads := by
  obtain ⟨line, threads⟩ := e
  rw [sleepTokens]

theorem Execution.sleepTokens_cons {e : Execution} {b : Block} {rest : List Block}
    (now : e.ahead = b :: rest) : e.sleepTokens = b.tokens ++ threadsTokens e.threads := by
  simp [sleepTokens_eq, Sequence.current?, now]

theorem Execution.rests_iff (e : Execution) :
    e.Rests ↔ e.toSequence.Rests ∧ (e.isRunning = false → e.threads = []) ∧ allRest e.threads := by
  obtain ⟨line, threads⟩ := e
  rw [Rests]

theorem threadsTokens_cons (t : Thread) (rest : List Thread) :
    threadsTokens (t :: rest) = t.execution.sleepTokens ++ threadsTokens rest := by
  obtain ⟨branch, execution⟩ := t
  rw [threadsTokens]

@[simp]
theorem threadsTokens_nil : threadsTokens [] = [] := rfl

@[simp]
theorem threadsTokens_append (first second : List Thread) :
    threadsTokens (first ++ second) = threadsTokens first ++ threadsTokens second := by
  induction first with
  | nil => rfl
  | cons t first ih =>
    rw [List.cons_append, threadsTokens_cons, threadsTokens_cons, ih, List.append_assoc]

theorem threadsTokens_perm (before after : List Thread) (t : Thread) :
    (threadsTokens (before ++ t :: after)).Perm
      (t.execution.sleepTokens ++ threadsTokens (before ++ after)) := by
  rw [threadsTokens_append, threadsTokens_cons, threadsTokens_append]
  exact List.perm_append_comm_assoc _ _ _

theorem allRest_cons (t : Thread) (rest : List Thread) :
    allRest (t :: rest) ↔ t.execution.Rests ∧ allRest rest := by
  obtain ⟨branch, execution⟩ := t
  rw [allRest]

theorem allRest_append (first second : List Thread) :
    allRest (first ++ second) ↔ allRest first ∧ allRest second := by
  induction first with
  | nil => simp [allRest]
  | cons t first ih => rw [List.cons_append, allRest_cons, allRest_cons, ih, and_assoc]

/-- The current block of a sequence at rest, with the blocks behind it. -/
theorem Sequence.Rests.at_cons {s : Sequence} {b : Block} {rest : List Block} (rests : s.Rests)
    (now : s.ahead = b :: rest) :
    (if s.isRunning then b.HoldsToken else b.tokens = []) ∧ ∀ c ∈ rest, c.tokens = [] := by
  have blocks := rests.2
  rwa [now] at blocks

/-- An execution that runs rests if its current block and its threads hold what they should. -/
theorem Execution.rests_running {e : Execution} {b : Block} {rest : List Block}
    (running : e.isRunning = true) (pause : e.pause = .empty) (now : e.ahead = b :: rest)
    (holds : b.HoldsToken) (none : ∀ c ∈ rest, c.tokens = []) (threads : allRest e.threads) :
    e.Rests := by
  refine (rests_iff e).mpr ⟨⟨pause, ?_⟩, fun idle => ?_, threads⟩
  · rw [now, running]
    exact ⟨holds, none⟩
  · rw [running] at idle
    cases idle

/-- An execution that does not run holds no token. -/
theorem Execution.Rests.sleepTokens_idle {e : Execution} (rests : e.Rests)
    (idle : e.isRunning = false) : e.sleepTokens = [] := by
  obtain ⟨line_rests, threads, -⟩ := (rests_iff e).mp rests
  rw [sleepTokens_eq, threads idle]
  cases now : e.ahead with
  | nil => simp [Sequence.current?, now]
  | cons b rest =>
    obtain ⟨current, -⟩ := line_rests.at_cons now
    rw [idle] at current
    have none : b.tokens = [] := current
    simp [Sequence.current?, now, none]

variable {book : σ → ReminderBook} {services : Services σ} (keeps : services.KeepsBook book)
  {hand : Handed} {tokens : List Nat} {w : World σ}
include keeps

theorem LeaveHook.run_accounts (hook : LeaveHook) (accounts : w.Accounts book hand tokens) :
    Answered (fun _ w => World.Accounts book hand w tokens) (fun _ _ => True)
      (hook.run services w) := by
  cases hook with
  | removeReminder id => exact World.removeReminder_accounts keeps accounts id
  | custom name failure =>
    cases failure with
    | none =>
      have aside : Entry.IsAside (.asked (.hook name) (.ok ())) := trivial
      exact accounts.note aside
    | some e => trivial

theorem LeaveHook.runAll_accounts (hooks : List LeaveHook)
    (accounts : w.Accounts book hand tokens) :
    (runAll services hooks w).Yields fun _ _ w => World.Accounts book hand w tokens := by
  induction hooks generalizing w with
  | nil => exact accounts
  | cons hook rest ih =>
    unfold runAll
    exact (hook.run_accounts keeps accounts).elim (fun _ _ accounts => ih accounts)
      fun _ _ _ => trivial

theorem Sleep.giveBackToken_accounts (s : Sleep)
    (accounts : w.Accounts book hand (s.token.toList ++ tokens)) :
    (s.giveBackToken services w).Yields fun _ _ w => World.Accounts book hand w tokens := by
  obtain ⟨value, unit, silent, remaining, token, route⟩ := s
  cases token with
  | none => exact accounts
  | some token =>
    have released := World.releasePause_accounts keeps accounts PauseRequests.Accounts.give_back
    simp only [giveBackToken]
    exact released.elim (fun _ _ accounts => accounts) fun _ _ _ => trivial

theorem Sleep.release_accounts (s : Sleep)
    (accounts : w.Accounts book hand (s.token.toList ++ tokens)) :
    (s.release services w).Yields fun _ _ w => World.Accounts book hand w tokens := by
  unfold release
  split
  · have cancelled := World.cancelCountdown_accounts keeps accounts s.route
    exact cancelled.elim
      (fun _ _ accounts => giveBackToken_accounts keeps { s with remaining := .zero } accounts)
      fun _ _ _ => trivial
  · exact s.giveBackToken_accounts keeps accounts

namespace Block

theorem wrapUp_accounts (b : Block) (accounts : w.Accounts book hand (b.tokens ++ tokens)) :
    (b.wrapUp services w).Yields fun _ _ w => World.Accounts book hand w tokens := by
  unfold Block.tokens at accounts
  unfold wrapUp
  cases activity : b.activity with
  | sleep s =>
    simp only [activity] at accounts
    exact (s.release_accounts keeps accounts).within_yields fun _ _ _ accounts => accounts
  | _ =>
    simp only [activity] at accounts
    exact accounts

theorem unregister_accounts (b : Block) (accounts : w.Accounts book hand tokens) :
    (b.unregister services w).Yields fun _ _ w => World.Accounts book hand w tokens := by
  unfold unregister
  split
  · exact accounts
  · next id _ =>
    have removed := World.removeReminder_accounts keeps accounts id
    exact removed.elim (fun _ _ accounts => accounts) fun _ _ _ => trivial

theorem discard_accounts (b : Block) (accounts : w.Accounts book hand tokens) :
    (b.discard services w).Yields fun _ _ w => World.Accounts book hand w tokens :=
  (b.unregister_accounts keeps accounts).bind_yields fun _ b _ accounts =>
    (LeaveHook.runAll_accounts keeps b.hooks accounts).within_yields fun _ _ _ accounts => accounts

theorem leave_accounts (b : Block) (accounts : w.Accounts book hand (b.tokens ++ tokens)) :
    (b.leave services w).Yields fun _ _ w => World.Accounts book hand w tokens :=
  (b.wrapUp_accounts keeps accounts).bind_yields fun _ b _ accounts =>
    b.discard_accounts keeps accounts

theorem register_accounts (b : Block) (accounts : w.Accounts book hand tokens) :
    Answered (fun _ w => World.Accounts book hand w tokens) (fun _ _ => True)
      (b.register services w) := by
  unfold register
  split
  · next r _ _ =>
    have added := World.addReminder_accounts keeps accounts b.shownText r
    exact added.elim (fun _ _ accounts => accounts) fun _ _ _ => trivial
  · exact accounts

end Block

theorem discardAll_accounts (blocks : List Block) (accounts : w.Accounts book hand tokens) :
    (discardAll services blocks w).Yields fun _ _ w => World.Accounts book hand w tokens := by
  induction blocks generalizing w with
  | nil => exact accounts
  | cons b rest ih =>
    exact (b.discard_accounts keeps accounts).bind_yields fun _ b _ accounts =>
      (ih accounts).within_yields fun _ _ _ accounts => accounts

namespace Sequence

theorem unregister_accounts (s : Sequence) (accounts : w.Accounts book hand tokens) :
    (s.unregister services w).Yields fun _ s' w =>
      s' = { s with handle := none } ∧ World.Accounts book hand w tokens := by
  unfold unregister
  split
  · next none => exact ⟨by rw [← none], accounts⟩
  · next id _ =>
    have removed := World.removeReminder_accounts keeps accounts id
    exact removed.elim (fun _ _ accounts => ⟨rfl, accounts⟩) fun _ _ _ => trivial

theorem giveUp_accounts (s : Sequence) (accounts : w.Accounts book hand tokens) :
    (s.giveUp services w).Yields fun _ _ w => World.Accounts book hand w tokens :=
  (discardAll_accounts keeps s.ahead accounts).bind_yields fun _ ahead _ accounts =>
    (unregister_accounts keeps { s with ahead } accounts).yields fun _ _ _ given_back => given_back.2

theorem halt_accounts (s : Sequence)
    (accounts : w.Accounts book hand (s.current?.toList.flatMap Block.tokens ++ tokens)) :
    (s.halt services w).Yields fun _ _ w => World.Accounts book hand w tokens := by
  unfold halt
  split
  · next now =>
    refine s.giveUp_accounts keeps ?_
    simpa [current?, now] using accounts
  · next b rest now =>
    have leaving : w.Accounts book hand (b.tokens ++ tokens) := by
      simpa [current?, now] using accounts
    refine (b.leave_accounts keeps leaving).bind_yields fun _ b v accounts => ?_
    have aside : Entry.IsAside (.left s.address s.cursor b.shownText) := trivial
    exact giveUp_accounts keeps (s.advance b rest) (accounts.note aside)

end Sequence

omit keeps

mutual

theorem Execution.cancel_accounts (keeps : services.KeepsBook book) :
    ∀ {e : Execution}, e.Rests → ∀ {w : World σ} {tokens : List Nat},
      w.Accounts book hand (e.sleepTokens ++ tokens) →
      (e.cancel services w).Yields fun _ _ w => World.Accounts book hand w tokens
  | ⟨line, threads⟩, rests, w, tokens, accounts => by
    unfold Execution.cancel
    split
    · have regrouped : w.Accounts book hand (threadsTokens threads ++
          (line.current?.toList.flatMap Block.tokens ++ tokens)) := by
        refine accounts.congr ?_
        rw [Execution.sleepTokens, ← List.append_assoc]
        exact List.perm_append_comm.append_right tokens
      refine (cancelThreads_accounts keeps rests.2.2 regrouped).bind_yields fun _ _ v accounts => ?_
      exact (Sequence.halt_accounts keeps { line with cancelled := true } accounts).within_yields
        fun _ _ _ accounts => accounts
    · next idle =>
      have none := Execution.Rests.sleepTokens_idle (e := ⟨line, threads⟩) rests
        (Bool.not_eq_true _ ▸ idle)
      rwa [none] at accounts

theorem cancelThreads_accounts (keeps : services.KeepsBook book) :
    ∀ {threads : List Thread}, allRest threads → ∀ {w : World σ} {tokens : List Nat},
      w.Accounts book hand (threadsTokens threads ++ tokens) →
      (cancelThreads services threads w).Yields fun _ _ w => World.Accounts book hand w tokens
  | [], _, _, _, accounts => accounts
  | ⟨_, execution⟩ :: rest, rests, w, tokens, accounts => by
    rw [threadsTokens, List.append_assoc] at accounts
    exact (Execution.cancel_accounts keeps rests.1 accounts).bind_yields fun _ _ _ accounts =>
      cancelThreads_accounts keeps rests.2 accounts

end

/-- The threads that are left of a group hold their tokens. -/
theorem Join.complete_accounts (keeps : services.KeepsBook book) (j : Join) {threads : List Thread}
    (rest : allRest threads) (accounts : w.Accounts book hand (threadsTokens threads ++ tokens)) :
    (j.complete services threads w).Yields fun ended part w =>
      World.Accounts book hand w (threadsTokens part.2 ++ tokens) ∧ allRest part.2 ∧
        (ended = true → part.2 = []) := by
  unfold complete
  simp only
  split
  · refine (cancelThreads_accounts keeps rest accounts).bind_yields fun _ _ v accounts => ?_
    split
    · exact ⟨accounts, trivial, fun _ => rfl⟩
    · exact ⟨accounts, trivial, fun _ => rfl⟩
  · exact ⟨accounts, rest, nofun⟩

end Stepwise
