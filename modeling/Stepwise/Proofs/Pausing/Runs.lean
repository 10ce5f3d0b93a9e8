import Stepwise.Proofs.Joining
import Stepwise.Proofs.Pausing.Delivery

/-!
# Who holds reminders back after a call

Blocks that the host adds to a run hold no token, and what the host takes and gives back is its own.
So after every call the outstanding requests are those of the host and those of the silent waits
that the run is in, and reminders are paused as long as there is one. The host must not give back a
token that is held by a wait.
-/

namespace Stepwise

variable {σ : Type} {Good : σ → Prop} {book : σ → ReminderBook} {services : Services σ}
  {hand : Handed} {tokens : List Nat} {w : World σ}

namespace Handed

def empty : Handed := ⟨[], []⟩

/-- What the host holds after a call on a run. -/
def perform (services : Services σ) (hand : Handed) (r : Run σ) : Call → Handed
  | .requestPause =>
    match (r.requestPause services).1 with
    | .ok token => ⟨token :: hand.given, token :: hand.kept⟩
    | .error _ => hand
  | .releasePause token => { hand with kept := hand.kept.erase token }
  | _ => hand

def after (services : Services σ) (hand : Handed) (r : Run σ) : List Call → Handed
  | [] => hand
  | call :: calls => (hand.perform services r call).after services (r.perform services call) calls

/-- The host gives back a token only if it was given that token or nobody holds it. -/
def Honest (hand : Handed) (r : Run σ) : Call → Prop
  | .releasePause token => token ∈ hand.given ∨ token ∉ r.world.pause.outstanding
  | _ => True

def HonestAll (services : Services σ) (hand : Handed) (r : Run σ) : List Call → Prop
  | [] => True
  | call :: calls => hand.Honest r call ∧
    (hand.perform services r call).HonestAll services (r.perform services call) calls

end Handed

theorem HostBlock.tokens_block (b : HostBlock) : b.block.tokens = [] :=
  Block.tokens_ofTemplate b.template

/-- Before the first call. -/
theorem World.accounts_of_makings {host : σ} (empty : book host = .empty) {journal : List Entry}
    (makings : ∀ entry ∈ journal, entry.IsMaking) :
    World.Accounts book .empty ⟨host, .empty, journal⟩ [] := by
  induction journal with
  | nil =>
    refine ⟨⟨?_, 0, rfl, rfl⟩, fun _ => ⟨rfl, List.nodup_nil, ?_, List.Perm.refl _, ?_, ?_⟩⟩
    · rw [empty]
      rfl
    all_goals exact nofun
  | cons entry journal ih =>
    have aside : entry.IsAside := by
      have making := makings entry List.mem_cons_self
      cases entry <;> trivial
    exact (ih fun other mem => makings other (List.mem_cons_of_mem entry mem)).note aside

namespace Execution

variable {e : Execution}

/-- No block of an execution that does not run holds a token. -/
theorem Rests.blocks_idle (rests : e.Rests) (idle : e.isRunning = false) :
    ∀ b ∈ e.ahead, b.tokens = [] := by
  obtain ⟨line_rests, -, -⟩ := (rests_iff e).mp rests
  cases now : e.ahead with
  | nil => exact List.forall_mem_nil _
  | cons b rest =>
    obtain ⟨current, behind⟩ := line_rests.at_cons now
    simp only [idle, Bool.false_eq_true, if_false] at current
    exact List.forall_mem_cons.mpr ⟨current, behind⟩

/-- Blocks without tokens are put behind the current one. -/
theorem Rests.extend (rests : e.Rests) {ahead : List Block}
    (current : ∀ b rest, e.ahead = b :: rest →
      ∃ rest', ahead = b :: rest' ∧ ∀ c ∈ rest', c ∈ rest ∨ c.tokens = [])
    (at_end : e.ahead = [] → e.isRunning = false ∧ ∀ c ∈ ahead, c.tokens = []) :
    Rests { e with ahead } ∧ sleepTokens { e with ahead } = e.sleepTokens := by
  obtain ⟨line_rests, idle_threads, threads_rest⟩ := (rests_iff e).mp rests
  have pause : e.pause = .empty := line_rests.1
  cases now : e.ahead with
  | nil =>
    obtain ⟨idle, none⟩ := at_end now
    have extended : Rests { e with ahead } := by
      refine (rests_iff _).mpr ⟨⟨pause, ?_⟩, idle_threads, threads_rest⟩
      cases ahead with
      | nil => trivial
      | cons b rest =>
        have idle' : { e.toSequence with ahead := b :: rest }.isRunning = false := idle
        simp only [idle', Bool.false_eq_true, if_false]
        exact List.forall_mem_cons.mp none
    exact ⟨extended, by rw [extended.sleepTokens_idle idle, rests.sleepTokens_idle idle]⟩
  | cons b rest =>
    obtain ⟨rest', rfl, added⟩ := current b rest now
    obtain ⟨holds, none⟩ := line_rests.at_cons now
    refine ⟨(rests_iff _).mpr ⟨⟨pause, holds, fun c mem => ?_⟩, idle_threads, threads_rest⟩, ?_⟩
    · rcases added c mem with old | new
      · exact none c old
      · exact new
    · rw [sleepTokens_cons now, sleepTokens_cons rfl]

theorem Rests.thread? {x : Execution} {path : List Nat} (rests : e.Rests)
    (found : e.thread? path = some x) : x.Rests := by
  induction path generalizing e with
  | nil =>
    cases found
    exact rests
  | cons branch path ih =>
    obtain ⟨t, mem, -, -, inside⟩ := thread?_found found
    refine ih ?_ inside
    have threads_rest := ((rests_iff e).mp rests).2.2
    obtain ⟨before, after, threads⟩ := List.append_of_mem mem
    rw [threads, allRest_append, allRest_cons] at threads_rest
    exact threads_rest.2.1

/-- The current wait of an execution at rest. -/
theorem Rests.token_iff (rests : e.Rests) {b : Block} {s : Sleep} (now : e.current? = some b)
    (sleep : b.activity = .sleep s) :
    s.token.isSome = true ↔ s.silent = true ∧ e.isRunning = true := by
  obtain ⟨rest, ahead⟩ := List.head?_eq_some_iff.mp now
  obtain ⟨current, -⟩ := ((rests_iff e).mp rests).1.at_cons ahead
  unfold Block.HoldsToken Block.tokens at current
  simp only [sleep, Option.toList_eq_nil_iff] at current
  cases running : e.isRunning with
  | true =>
    simp only [running, if_true] at current
    simp [current]
  | false =>
    simp only [running, Bool.false_eq_true, if_false] at current
    simp [current]

end Execution

namespace Run

/-- The root rests, and its pause requests are those of the host and of the waits that it is in. -/
structure Accounted (book : σ → ReminderBook) (hand : Handed) (r : Run σ) : Prop where
  accounts : r.world.Accounts book hand r.root.sleepTokens
  rests : r.root.Rests

variable {r : Run σ}

/-- The root alone accounts for what is left of it. -/
theorem yields_accounted {o : Outcome σ Execution Unit}
    (left : Execution.LeftAtRest book hand [] o) :
    o.Yields fun _ e w => Accounted book hand ⟨e, w⟩ :=
  left.yields fun _ e w left => by
    rw [List.append_nil] at left
    exact ⟨left.1, left.2⟩

theorem begin_accounted (keeps : services.KeepsBook book) {e : Execution} (rests : e.Rests)
    (unstarted : e.started = false) (unfinished : e.finished = false)
    (uncancelled : e.cancelled = false) (accounts : w.Accounts book hand e.sleepTokens) :
    (begin services e w).Yields fun _ e w => Accounted book hand ⟨e, w⟩ := by
  have idle : e.isRunning = false := by simp [Sequence.isRunning, unstarted]
  have clear : ∀ handle, Execution.Clear { e with started := true, handle } := fun handle =>
    ⟨by simp [Sequence.isRunning, unfinished, uncancelled], ((Execution.rests_iff e).mp rests).1.1,
      rests.blocks_idle idle⟩
  rw [rests.sleepTokens_idle idle] at accounts
  unfold begin
  simp only
  split
  · next reminder description _ _ =>
    have added := World.addReminder_accounts keeps accounts description reminder
    refine added.elim (fun id v accounts => ?_) fun _ _ _ => trivial
    exact yields_accounted (Execution.enter_accounts keeps _ (clear (some id)) accounts)
  · exact yields_accounted (Execution.enter_accounts keeps _ (clear e.handle) accounts)

/-- Only a root that does not run has no current block. -/
theorem Sound.idle (sound : r.Sound Good) (at_end : r.root.ahead = []) :
    r.root.isRunning = false := by
  cases running : r.root.isRunning with
  | false => rfl
  | true =>
    obtain ⟨-, ⟨b, rest, now, -⟩, -⟩ := (Execution.settled_iff _).mp (sound.settled running)
    rw [now] at at_end
    cases at_end

/-- The host adds blocks without tokens. -/
theorem Accounted.extend (accounted : r.Accounted book hand) {ahead : List Block}
    (current : ∀ b rest, r.root.ahead = b :: rest →
      ∃ rest', ahead = b :: rest' ∧ ∀ c ∈ rest', c ∈ rest ∨ c.tokens = [])
    (at_end : r.root.ahead = [] → r.root.isRunning = false ∧ ∀ c ∈ ahead, c.tokens = []) :
    Accounted book hand { r with root := { r.root with ahead } } := by
  obtain ⟨rests, same⟩ := accounted.rests.extend current at_end
  refine ⟨?_, rests⟩
  rw [same]
  exact accounted.accounts

theorem accounted_push (accounted : r.Accounted book hand) (sound : r.Sound Good)
    (block : HostBlock) : (r.push block.block).Accounted book hand := by
  refine accounted.extend (fun b rest now => ?_) fun at_end => ⟨sound.idle at_end, fun c mem => ?_⟩
  · refine ⟨_, Sequence.ahead_push now block.block, fun c mem => ?_⟩
    rcases List.mem_append.mp mem with old | new
    · exact Or.inl old
    · rw [List.mem_singleton.mp new]
      exact Or.inr block.tokens_block
  · rw [at_end, List.nil_append] at mem
    rw [List.mem_singleton.mp mem]
    exact block.tokens_block

theorem accounted_splice (accounted : r.Accounted book hand) (sound : r.Sound Good)
    (blocks : List HostBlock) :
    (r.splice (blocks.map HostBlock.block)).Accounted book hand := by
  have none : ∀ c ∈ blocks.map HostBlock.block, c.tokens = [] := by
    intro c mem
    obtain ⟨block, -, rfl⟩ := List.mem_map.mp mem
    exact block.tokens_block
  rw [splice, Sequence.splice_eq]
  refine accounted.extend (fun b rest now => ?_) fun at_end => ⟨sound.idle at_end, fun c mem => ?_⟩
  · refine ⟨_, Sequence.ahead_splice now _, fun c mem => ?_⟩
    rcases List.mem_append.mp mem with new | old
    · exact Or.inr (none c new)
    · exact Or.inl old
  · rcases Sequence.mem_splice mem with new | old
    · exact none c new
    · rw [at_end] at old
      cases old

theorem accounted_perform (reliable : services.Reliable Good) (keeps : services.KeepsBook book)
    (sound : r.Sound Good) {call : Call} (honest : hand.Honest r call)
    (accounted : r.Accounted book hand) :
    (r.perform services call).Accounted book (hand.perform services r call) := by
  obtain ⟨accounts, rests⟩ := accounted
  cases call with
  | start =>
    cases started : r.root.started with
    | true =>
      simp only [perform, start, started, if_true]
      exact ⟨accounts, rests⟩
    | false =>
      obtain ⟨unfinished, uncancelled, -⟩ := sound.unstarted started
      exact sound.start_yields reliable started (P := fun e w => Accounted book hand ⟨e, w⟩)
        (begin_accounted keeps rests started unfinished uncancelled accounts)
  | dispatch path event =>
    have alone : r.world.Accounts book hand (r.root.sleepTokens ++ []) := by rwa [List.append_nil]
    exact sound.dispatch_yields reliable path event (P := fun e w => Accounted book hand ⟨e, w⟩)
      (yields_accounted (r.root.dispatch_accounts keeps event path rests alone))
  | push block => exact accounted_push ⟨accounts, rests⟩ sound block
  | splice blocks => exact accounted_splice ⟨accounts, rests⟩ sound blocks
  | requestPause =>
    have requested : Answered (fun token v => World.Accounts book
          ⟨token :: hand.given, token :: hand.kept⟩ v r.root.sleepTokens) (fun _ _ => True)
        (r.world.requestPause services) :=
      World.requestPause_accounts keeps accounts PauseRequests.Accounts.hand_out
    obtain ⟨token, v, answered, -⟩ := World.requestPause_ok reliable.calm sound.good
    rw [answered] at requested
    simp only [perform, Handed.perform, requestPause, answered]
    exact ⟨requested, rests⟩
  | releasePause token =>
    have released : Answered (fun _ v => World.Accounts book
          ⟨hand.given, hand.kept.erase token⟩ v r.root.sleepTokens) (fun _ _ => True)
        (r.world.releasePause services token) :=
      World.releasePause_accounts keeps accounts fun balanced => balanced.hand_back honest
    obtain ⟨v, answered, -⟩ := World.releasePause_ok reliable.calm token sound.good
    rw [answered] at released
    simp only [perform, Handed.perform, releasePause, answered]
    exact ⟨released, rests⟩

theorem accounted_after (reliable : services.Reliable Good) (keeps : services.KeepsBook book)
    (sound : r.Sound Good) (calls : List Call) (succeed : ∀ call ∈ calls, call.Succeeds)
    (honest : hand.HonestAll services r calls) (accounted : r.Accounted book hand) :
    (r.after services calls).Accounted book (hand.after services r calls) := by
  induction calls generalizing r hand with
  | nil => exact accounted
  | cons call calls ih =>
    obtain ⟨honest_now, honest_then⟩ := honest
    have sound' := sound_perform reliable r call (succeed call List.mem_cons_self) sound
    exact ih sound' (fun c mem => succeed c (List.mem_cons_of_mem call mem)) honest_then
      (accounted_perform reliable keeps sound honest_now accounted)

theorem Assembled.accounted {blocks : List HostBlock} (assembled : r.Assembled blocks)
    (empty : book r.world.host = .empty) : r.Accounted book .empty := by
  obtain ⟨description, reminder, root⟩ := assembled.root
  have rests : r.root.Rests := by
    rw [root]
    refine Execution.rests_fresh _ _ _ fun b mem => ?_
    obtain ⟨block, -, rfl⟩ := List.mem_map.mp mem
    exact block.tokens_block
  have idle : r.root.isRunning = false := by
    rw [root]
    rfl
  refine ⟨?_, rests⟩
  rw [rests.sleepTokens_idle idle]
  have made := World.accounts_of_makings empty assembled.journal
  rwa [← assembled.pause] at made

/-- After every call, unless there were too many requests: the outstanding tokens are those that the
host keeps and those of the waits that the run is in, none of them in two hands. A current wait has
one just if it is silent and its sequence runs, and no thread has requests of its own. The reminder
service is paused while a token is outstanding, and it was told to pause and to resume in turn. -/
theorem pauses_accounted (reliable : services.Reliable Good) (keeps : services.KeepsBook book)
    {blocks : List HostBlock} (assembled : r.Assembled blocks) (good : Good r.world.host)
    (empty : book r.world.host = .empty) (blocks_succeed : ∀ b ∈ blocks, b.Succeeds)
    (calls : List Call) (calls_succeed : ∀ call ∈ calls, call.Succeeds)
    (honest : Handed.empty.HonestAll services r calls)
    (few : pauseRequestsIn (r.after services calls).world.journal < PauseRequests.tokenCount) :
    let after := r.after services calls
    let kept := (Handed.empty.after services r calls).kept
    after.world.pause.outstanding.Perm (kept ++ after.root.sleepTokens) ∧
      (kept ++ after.root.sleepTokens).Nodup ∧
      (∀ path x b s, after.root.thread? path = some x → x.current? = some b →
        b.activity = .sleep s → (s.token.isSome = true ↔ s.silent = true ∧ x.isRunning = true)) ∧
      (∀ path requests, path ≠ [] → after.pauseRequests? path = some requests →
        requests = .empty) ∧
      ((book after.world.host).paused = true ↔ after.world.pause.outstanding ≠ []) ∧
      ∃ count, pauseCalls after.world.journal = alternating count := by
  have sound := assembled.sound blocks_succeed good
  obtain ⟨accounts, rests⟩ :=
    accounted_after reliable keeps sound calls calls_succeed honest (assembled.accounted empty)
  obtain ⟨-, balanced⟩ := accounts.ledger few
  obtain ⟨count, told, -⟩ := accounts.steady.calls
  refine ⟨balanced.shared, balanced.shared.nodup_iff.mp balanced.distinct, ?_, ?_, ?_, count, told⟩
  · intro path x b s found now sleep
    exact (rests.thread? found).token_iff now sleep
  · intro path requests inside found
    cases path with
    | nil => exact absurd rfl inside
    | cons branch path =>
      obtain ⟨x, at_path, rfl⟩ := Option.map_eq_some_iff.mp found
      exact ((Execution.rests_iff x).mp (rests.thread? at_path)).1.1
  · rw [accounts.steady.paused]
    simp [PauseRequests.isPaused]

/-- A group of which one thread waits silently. -/
def eitherCall : Run InMemory :=
  .ofWorkflow ⟨"either", none, none, [.parallel "either" 1
    [[.task "call"], [.sleep 30 .seconds "hold" true]], .task "next"]⟩ .empty

/-- The host pauses, then the thread, then the host again, and the host gives its first token
back. -/
theorem pauses_accounted_eitherCall :
    let calls : List Call := [.requestPause, .start, .requestPause, .releasePause 0]
    let after := eitherCall.after InMemory.services calls
    let kept := (Handed.empty.after InMemory.services eitherCall calls).kept
    (after.root.sleepTokens = [1] ∧ kept = [2]) ∧
    after.world.pause.outstanding.Perm (kept ++ after.root.sleepTokens) ∧
      (kept ++ after.root.sleepTokens).Nodup ∧
      (∀ path x b s, after.root.thread? path = some x → x.current? = some b →
        b.activity = .sleep s → (s.token.isSome = true ↔ s.silent = true ∧ x.isRunning = true)) ∧
      (∀ path requests, path ≠ [] → after.pauseRequests? path = some requests →
        requests = .empty) ∧
      (after.world.host.reminders.paused = true ↔ after.world.pause.outstanding ≠ []) ∧
      ∃ count, pauseCalls after.world.journal = alternating count := by
  refine ⟨by decide +kernel, pauses_accounted InMemory.reliable InMemory.keepsBook
    (assembled_ofWorkflow _ _) InMemory.willing_empty rfl ?_ _ ?_ ?_ ?_⟩
  · intro b mem
    obtain ⟨t, -, rfl⟩ := List.mem_map.mp mem
    exact HostBlock.succeeds_plain t
  · intro call mem
    simp only [List.mem_cons, List.not_mem_nil, or_false] at mem
    rcases mem with rfl | rfl | rfl | rfl <;> trivial
  · exact ⟨trivial, trivial, trivial, Or.inl (by decide +kernel), trivial⟩
  · decide +kernel

/-- A silent wait that is current before the start holds no token. -/
theorem unstarted_wait_holds_none :
    let blank : Run InMemory := .ofWorkflow ⟨"rest", none, none, []⟩ .empty
    let calls : List Call := [.push (.plain (.sleep 5 .minutes "rest" true))]
    let after := blank.after InMemory.services calls
    Handed.empty.HonestAll InMemory.services blank calls ∧
      pauseRequestsIn after.world.journal < PauseRequests.tokenCount ∧
      ¬ ∀ path x b s, after.root.thread? path = some x → x.current? = some b →
        b.activity = .sleep s → (s.token.isSome = true ↔ s.silent = true) := by
  refine ⟨⟨trivial, trivial⟩, by decide +kernel, fun holds => ?_⟩
  have now := holds [] _ _ _ rfl rfl rfl
  simp [Sleep.fresh] at now

end Run

end Stepwise
