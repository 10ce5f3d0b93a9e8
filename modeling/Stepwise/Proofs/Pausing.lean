import Stepwise.Proofs.Ending
import Stepwise.Proofs.Ownership

/-!
# Who holds reminders back

Every outstanding pause request is either one that the host has made and not yet given back, or that
of a silent wait. The two share one numbering, which does not come back to a number as long as there
are fewer requests than numbers. The reminder service is told of a pause when the first request
comes and of its end when the last one goes, so it is told the two in turn.
-/

namespace Stepwise

variable {σ : Type}

/-- The tokens that the host was given, and those of them that it has not given back. -/
structure Handed where
  given : List Nat
  kept : List Nat

namespace PauseRequests

variable {hand : Handed} {tokens : List Nat} {p : PauseRequests} {token : Nat}

/-- The requests after one more that is granted. -/
def granted (p : PauseRequests) : PauseRequests :=
  ⟨p.outstanding.insert p.next, (p.next + 1) % tokenCount⟩

/-- The requests without one that is given back. -/
def without (token : Nat) (p : PauseRequests) : PauseRequests :=
  { p with outstanding := p.outstanding.erase token }

/-- The outstanding tokens are those that the host keeps and the other ones, and all were taken in
turn. Of the tokens that the host was given only those are outstanding that it still keeps. -/
structure Accounts (hand : Handed) (tokens : List Nat) (p : PauseRequests) : Prop where
  distinct : p.outstanding.Nodup
  earlier : ∀ token ∈ p.outstanding, token < p.next
  shared : p.outstanding.Perm (hand.kept ++ tokens)
  given : ∀ token ∈ hand.given, token < p.next
  returned : ∀ token ∈ hand.given, token ∈ p.outstanding → token ∈ hand.kept

theorem isPaused_of_mem (out : token ∈ p.outstanding) : p.isPaused = true := by
  unfold isPaused
  cases tokens : p.outstanding with
  | nil =>
    rw [tokens] at out
    cases out
  | cons first rest => rfl

theorem mem_granted (p : PauseRequests) :
    ∀ token, token ∈ p.granted.outstanding ↔ token = p.next ∨ token ∈ p.outstanding :=
  fun _ => List.mem_insert_iff

theorem isPaused_granted (p : PauseRequests) : p.granted.isPaused = true :=
  isPaused_of_mem ((p.mem_granted p.next).mpr (Or.inl rfl))

theorem Accounts.next_new (accounts : p.Accounts hand tokens) : p.next ∉ p.outstanding :=
  fun mem => Nat.lt_irrefl _ (accounts.earlier p.next mem)

theorem Accounts.outstanding_granted (accounts : p.Accounts hand tokens) :
    p.granted.outstanding = p.next :: p.outstanding :=
  List.insert_of_not_mem accounts.next_new

/-- What a granted request leaves as it was, whoever made it. -/
theorem Accounts.granted_turn (accounts : p.Accounts hand tokens)
    (room : p.next + 1 < tokenCount) :
    p.granted.next = p.next + 1 ∧ p.granted.outstanding.Nodup ∧
      ∀ token ∈ p.granted.outstanding, token < p.granted.next := by
  have next : p.granted.next = p.next + 1 := Nat.mod_eq_of_lt room
  refine ⟨next, ?_, fun token mem => ?_⟩
  · rw [accounts.outstanding_granted]
    exact List.nodup_cons.mpr ⟨accounts.next_new, accounts.distinct⟩
  · rw [next]
    rcases (p.mem_granted token).mp mem with rfl | old
    · exact Nat.lt_succ_self _
    · exact Nat.lt_succ_of_lt (accounts.earlier token old)

/-- A wait takes a token. -/
theorem Accounts.take (accounts : p.Accounts hand tokens) (room : p.next + 1 < tokenCount) :
    p.granted.Accounts hand (p.next :: tokens) := by
  obtain ⟨next, distinct, earlier⟩ := accounts.granted_turn room
  refine ⟨distinct, earlier, ?_, fun token mem => ?_, fun token mem out => ?_⟩
  · rw [accounts.outstanding_granted]
    exact (accounts.shared.cons p.next).trans List.perm_middle.symm
  · rw [next]
    exact Nat.lt_succ_of_lt (accounts.given token mem)
  · rcases (p.mem_granted token).mp out with rfl | old
    · exact absurd (accounts.given p.next mem) (Nat.lt_irrefl _)
    · exact accounts.returned token mem old

/-- The host takes a token. -/
theorem Accounts.hand_out (accounts : p.Accounts hand tokens) (room : p.next + 1 < tokenCount) :
    p.granted.Accounts ⟨p.next :: hand.given, p.next :: hand.kept⟩ tokens := by
  obtain ⟨next, distinct, earlier⟩ := accounts.granted_turn room
  refine ⟨distinct, earlier, ?_, fun token mem => ?_, fun token mem out => ?_⟩
  · rw [accounts.outstanding_granted]
    exact accounts.shared.cons p.next
  · rw [next]
    rcases List.mem_cons.mp mem with rfl | old
    · exact Nat.lt_succ_self _
    · exact Nat.lt_succ_of_lt (accounts.given token old)
  · rcases (p.mem_granted token).mp out with rfl | old
    · exact List.mem_cons_self
    · rcases List.mem_cons.mp mem with rfl | given
      · exact List.mem_cons_self
      · exact List.mem_cons_of_mem _ (accounts.returned token given old)

/-- A wait gives its token back. -/
theorem Accounts.give_back (accounts : p.Accounts hand (token :: tokens)) :
    (p.without token).Accounts hand tokens := by
  refine ⟨accounts.distinct.erase token,
    fun other mem => accounts.earlier other (List.mem_of_mem_erase mem), ?_, accounts.given,
    fun other given mem => accounts.returned other given (List.mem_of_mem_erase mem)⟩
  have erased := (accounts.shared.trans List.perm_middle).erase token
  rwa [List.erase_cons_head] at erased

/-- The host gives back a token that it was given, or one that is not outstanding. -/
theorem Accounts.hand_back (accounts : p.Accounts hand tokens)
    (honest : token ∈ hand.given ∨ token ∉ p.outstanding) :
    (p.without token).Accounts ⟨hand.given, hand.kept.erase token⟩ tokens := by
  have erased : ∀ other, other ∈ (p.without token).outstanding ↔
      other ≠ token ∧ other ∈ p.outstanding := fun other => accounts.distinct.mem_erase_iff
  refine ⟨accounts.distinct.erase token,
    fun other mem => accounts.earlier other (List.mem_of_mem_erase mem), ?_, accounts.given,
    fun other given mem => ?_⟩
  · by_cases out : token ∈ p.outstanding
    · have kept : token ∈ hand.kept :=
        accounts.returned token (honest.resolve_right fun not_out => not_out out) out
      have both := accounts.shared.erase token
      rwa [List.erase_append_left tokens kept] at both
    · have not_kept : token ∉ hand.kept := fun kept =>
        out (accounts.shared.mem_iff.mpr (List.mem_append_left tokens kept))
      simp only [without]
      rw [List.erase_of_not_mem out, List.erase_of_not_mem not_kept]
      exact accounts.shared
  · obtain ⟨different, out⟩ := (erased other).mp mem
    exact (List.mem_erase_of_ne different).mpr (accounts.returned other given out)

end PauseRequests

/-- Whether the service was asked to pause or to resume, for an entry that tells it. -/
def Entry.pauseCall? : Entry → Option Bool
  | .asked (.setPaused paused) _ => some paused
  | _ => none

/-- What the service was asked, the earliest first. -/
def pauseCalls (journal : List Entry) : List Bool := journal.reverse.filterMap Entry.pauseCall?

def Entry.isPauseRequest : Entry → Bool
  | .pauseRequested _ => true
  | _ => false

/-- How many pause requests were made, by the host and by waits. -/
def pauseRequestsIn (journal : List Entry) : Nat := journal.countP Entry.isPauseRequest

/-- The entry is neither a pause request nor one that the service is told of. -/
def Entry.IsAside : Entry → Prop
  | .asked (.setPaused _) _ | .pauseRequested _ => False
  | _ => True

theorem Entry.IsAside.pauseCall? {entry : Entry} (aside : entry.IsAside) :
    entry.pauseCall? = none := by
  unfold Entry.pauseCall?
  split
  · cases aside
  · rfl

theorem Entry.IsAside.isPauseRequest {entry : Entry} (aside : entry.IsAside) :
    entry.isPauseRequest = false := by
  unfold Entry.isPauseRequest
  split
  · cases aside
  · rfl

/-- So many requests to pause and to resume in turn. -/
def alternating (count : Nat) : List Bool := (List.range count).map (· % 2 = 0)

theorem alternating_succ (count : Nat) :
    alternating (count + 1) = alternating count ++ [decide (count % 2 = 0)] := by
  simp [alternating, List.range_succ]

/-- After an even number of calls the next one is to pause, and after an odd number to resume. -/
theorem turn_of_paused {count : Nat} {paused : Bool} (now : (!paused) = decide (count % 2 = 1)) :
    decide (count % 2 = 0) = paused ∧ paused = decide ((count + 1) % 2 = 1) := by
  have := Nat.mod_two_eq_zero_or_one count
  cases paused <;> simp at now ⊢ <;> omega

theorem pauseCalls_cons (entry : Entry) (journal : List Entry) :
    pauseCalls (entry :: journal) = pauseCalls journal ++ entry.pauseCall?.toList := by
  rw [pauseCalls, List.reverse_cons, List.filterMap_append, pauseCalls]
  cases h : entry.pauseCall? <;> simp [h]

theorem pauseRequestsIn_cons (entry : Entry) (journal : List Entry) :
    pauseRequestsIn (entry :: journal) =
      pauseRequestsIn journal + if entry.isPauseRequest then 1 else 0 :=
  List.countP_cons

namespace ReminderBook

theorem paused_add (label : String) (r : Reminder) (b : ReminderBook) :
    (b.add label r).2.paused = b.paused := by
  unfold add
  split <;> rfl

theorem paused_remove (id : Nat) (b : ReminderBook) : (b.remove id).2.paused = b.paused := by
  unfold remove
  split
  · rfl
  · split <;> rfl

theorem paused_setPaused {paused : Bool} {b : ReminderBook}
    (answered : (b.setPaused paused).1 = .ok ()) : (b.setPaused paused).2.paused = paused := by
  unfold setPaused at *
  split
  · next failing =>
    simp only [failing, if_true] at answered
    cases answered
  · split
    · next same => exact same
    · rfl

end ReminderBook

namespace World

/-- The service is paused while a request is outstanding, and it was told so in turn. -/
structure Steady (book : σ → ReminderBook) (w : World σ) : Prop where
  paused : (book w.host).paused = w.pause.isPaused
  calls : ∃ count, pauseCalls w.journal = alternating count ∧
    w.pause.isPaused = decide (count % 2 = 1)

/-- The service is told in turn, and unless there were too many requests the tokens are those that
the host keeps and these. -/
structure Accounts (book : σ → ReminderBook) (hand : Handed) (w : World σ) (tokens : List Nat) :
    Prop where
  steady : w.Steady book
  ledger : pauseRequestsIn w.journal < PauseRequests.tokenCount →
    w.pause.next = pauseRequestsIn w.journal ∧ w.pause.Accounts hand tokens

variable {book : σ → ReminderBook} {hand : Handed} {tokens : List Nat} {w : World σ}

/-- A step that has nothing to do with pauses. -/
theorem Accounts.aside (accounts : w.Accounts book hand tokens) {entry : Entry} {host : σ}
    (aside : entry.IsAside) (same : (book host).paused = (book w.host).paused) :
    World.Accounts book hand { w with host, journal := entry :: w.journal } tokens := by
  have calls : pauseCalls (entry :: w.journal) = pauseCalls w.journal := by
    rw [pauseCalls_cons, aside.pauseCall?]
    exact List.append_nil _
  have requests : pauseRequestsIn (entry :: w.journal) = pauseRequestsIn w.journal := by
    simp [pauseRequestsIn_cons, aside.isPauseRequest]
  refine ⟨⟨same.trans accounts.steady.paused, ?_⟩, ?_⟩
  · rw [calls]
    exact accounts.steady.calls
  · rw [requests]
    exact accounts.ledger

theorem Accounts.note (accounts : w.Accounts book hand tokens) {entry : Entry}
    (aside : entry.IsAside) : (w.note entry).Accounts book hand tokens :=
  accounts.aside aside rfl

theorem Accounts.passOver (accounts : w.Accounts book hand tokens) (notice : Notice) :
    (w.passOver notice).Accounts book hand tokens := by
  have aside : Entry.IsAside (.passedOver notice) := trivial
  exact accounts.note aside

theorem Accounts.noteBuilt (accounts : w.Accounts book hand tokens) (templates : List Template) :
    (w.noteBuilt templates).Accounts book hand tokens := by
  induction templates generalizing w with
  | nil => exact accounts
  | cons t rest ih =>
    have aside : Entry.IsAside (.built t) := trivial
    have noted := ih (accounts.note aside)
    simpa [World.noteBuilt, World.note] using noted

theorem Accounts.noteOpened (accounts : w.Accounts book hand tokens)
    (branches : List (List Template)) : (w.noteOpened branches).Accounts book hand tokens := by
  induction branches generalizing w with
  | nil => exact accounts
  | cons templates rest ih =>
    have opened : Entry.IsAside (.opened none none) := trivial
    exact ih ((accounts.note opened).noteBuilt templates)

theorem Accounts.congr {tokens' : List Nat} (accounts : w.Accounts book hand tokens)
    (same : tokens.Perm tokens') : w.Accounts book hand tokens' where
  steady := accounts.steady
  ledger few := by
    obtain ⟨next, p⟩ := accounts.ledger few
    exact ⟨next, p.distinct, p.earlier, p.shared.trans (same.append_left hand.kept), p.given,
      p.returned⟩

section Asking

variable {services : Services σ} (keeps : services.KeepsBook book)
include keeps

theorem addReminder_accounts (accounts : w.Accounts book hand tokens) (label : String)
    (r : Reminder) :
    Answered (fun _ w => World.Accounts book hand w tokens) (fun _ _ => True)
      (w.addReminder services label r) := by
  have same := (keeps.addReminder label r w.host).2
  unfold World.addReminder
  generalize services.addReminder label r w.host = answered at same ⊢
  obtain ⟨answer, h⟩ := answered
  cases answer with
  | ok id =>
    refine accounts.aside trivial ?_
    rw [show book h = _ from same, ReminderBook.paused_add]
  | error e => trivial

omit keeps in
/-- A request that leaves the service paused as it is. -/
theorem ask_accounts (accounts : w.Accounts book hand tokens) {request : Request}
    {call : σ → Except ServiceError Unit × σ}
    (aside : ∀ answer, (Entry.asked request answer).IsAside)
    (same : (book (call w.host).2).paused = (book w.host).paused) :
    Answered (fun _ w => World.Accounts book hand w tokens) (fun _ _ => True)
      (w.ask request call) := by
  unfold World.ask
  generalize call w.host = answered at same ⊢
  obtain ⟨answer, h⟩ := answered
  cases answer with
  | ok _ => exact accounts.aside (aside _) same
  | error e => trivial

theorem removeReminder_accounts (accounts : w.Accounts book hand tokens) (id : Nat) :
    Answered (fun _ w => World.Accounts book hand w tokens) (fun _ _ => True)
      (w.removeReminder services id) := by
  refine ask_accounts accounts (fun _ => trivial) ?_
  rw [(keeps.removeReminder id w.host).2, ReminderBook.paused_remove]

theorem startCountdown_accounts (accounts : w.Accounts book hand tokens) (value : Int64)
    (unit : TimeUnit) (route : List Nat) :
    Answered (fun _ w => World.Accounts book hand w tokens) (fun _ _ => True)
      (w.startCountdown services value unit route) :=
  ask_accounts accounts (fun _ => trivial)
    (congrArg ReminderBook.paused (keeps.startCountdown value unit route w.host))

theorem forceFinish_accounts (accounts : w.Accounts book hand tokens) :
    Answered (fun _ w => World.Accounts book hand w tokens) (fun _ _ => True)
      (w.forceFinish services) :=
  ask_accounts accounts (fun _ => trivial)
    (congrArg ReminderBook.paused (keeps.forceFinish w.host))

theorem cancelCountdown_accounts (accounts : w.Accounts book hand tokens) (route : List Nat) :
    Answered (fun _ w => World.Accounts book hand w tokens) (fun _ _ => True)
      (w.cancelCountdown services route) :=
  ask_accounts accounts (fun _ => trivial)
    (congrArg ReminderBook.paused (keeps.cancelCountdown route w.host))

/-- The service is told of a change. -/
theorem setPaused_steady {paused : Bool} (steady : w.Steady book)
    (change : w.pause.isPaused = !paused) :
    Answered (fun _ v => (book v.host).paused = paused ∧ v.pause = w.pause ∧
        pauseRequestsIn v.journal = pauseRequestsIn w.journal ∧
        ∃ count, pauseCalls v.journal = alternating count ∧ paused = decide (count % 2 = 1))
      (fun _ _ => True) (w.setPaused services paused) := by
  obtain ⟨answer, becomes⟩ := keeps.setPaused paused w.host
  obtain ⟨count, calls, parity⟩ := steady.calls
  unfold World.setPaused World.ask
  generalize services.setPaused paused w.host = answered at answer becomes ⊢
  obtain ⟨result, h⟩ := answered
  cases result with
  | error e => trivial
  | ok _ =>
    have becomes : book h = ((book w.host).setPaused paused).2 := becomes
    obtain ⟨turn, parity'⟩ := turn_of_paused (change.symm.trans parity)
    refine ⟨?_, rfl, ?_, count + 1, ?_, parity'⟩
    · rw [becomes, ReminderBook.paused_setPaused answer.symm]
    · simp [pauseRequestsIn_cons, Entry.isPauseRequest]
    · rw [pauseCalls_cons, calls, alternating_succ, turn]
      rfl

/-- A pause request, whoever made it. -/
theorem requestPause_steady (steady : w.Steady book) :
    Answered (fun token v => token = w.pause.next ∧ v.Steady book ∧ v.pause = w.pause.granted ∧
        pauseRequestsIn v.journal = pauseRequestsIn w.journal + 1)
      (fun _ _ => True) (w.requestPause services) := by
  obtain ⟨count, calls, parity⟩ := steady.calls
  have calls : pauseCalls (.pauseRequested w.pause.next :: w.journal) = alternating count := by
    rw [pauseCalls_cons, calls]
    exact List.append_nil _
  have requests : pauseRequestsIn (.pauseRequested w.pause.next :: w.journal) =
      pauseRequestsIn w.journal + 1 := pauseRequestsIn_cons _ _
  unfold World.requestPause PauseRequests.request
  by_cases paused : w.pause.isPaused
  · simp only [paused, if_true]
    refine ⟨rfl, ⟨?_, count, calls, ?_⟩, rfl, requests⟩
    · exact steady.paused.trans (paused.trans w.pause.isPaused_granted.symm)
    · exact w.pause.isPaused_granted.trans (paused.symm.trans parity)
  · have noted : (w.note (.pauseRequested w.pause.next)).Steady book :=
      ⟨steady.paused, count, calls, parity⟩
    have change : (w.note (.pauseRequested w.pause.next)).pause.isPaused = !true :=
      Bool.not_eq_true _ ▸ paused
    have told := setPaused_steady keeps noted change
    simp only [paused]
    refine told.elim (fun _ v told => ?_) fun _ _ _ => trivial
    obtain ⟨now_paused, -, same_requests, told_calls⟩ := told
    refine ⟨rfl, ⟨?_, ?_⟩, rfl, same_requests.trans requests⟩
    · exact now_paused.trans w.pause.isPaused_granted.symm
    · obtain ⟨count', calls', parity'⟩ := told_calls
      exact ⟨count', calls', w.pause.isPaused_granted.trans parity'⟩

/-- A token is given back, whoever holds it. -/
theorem releasePause_steady (steady : w.Steady book) (token : Nat) :
    Answered (fun _ v => v.Steady book ∧ v.pause = w.pause.without token ∧
        pauseRequestsIn v.journal = pauseRequestsIn w.journal)
      (fun _ _ => True) (w.releasePause services token) := by
  obtain ⟨count, calls, parity⟩ := steady.calls
  unfold World.releasePause PauseRequests.release
  by_cases out : token ∈ w.pause.outstanding
  · have paused := PauseRequests.isPaused_of_mem out
    simp only [out, if_true]
    split
    · next still =>
      refine ⟨⟨?_, count, calls, ?_⟩, rfl, rfl⟩
      · exact steady.paused.trans (paused.trans still.symm)
      · exact still.trans (paused.symm.trans parity)
    · next resumed =>
      have change : w.pause.isPaused = !false := paused
      have resumed : (w.pause.without token).isPaused = false := Bool.not_eq_true _ ▸ resumed
      refine (setPaused_steady keeps steady change).elim (fun _ v told => ?_) fun _ _ _ => trivial
      obtain ⟨now_running, -, same_requests, count', calls', parity'⟩ := told
      exact ⟨⟨now_running.trans resumed.symm, count', calls', resumed.trans parity'⟩, rfl,
        same_requests⟩
  · have same : w.pause.without token = w.pause := by
      rw [PauseRequests.without, List.erase_of_not_mem out]
    simp only [out, if_false]
    exact ⟨steady, same.symm, rfl⟩

/-- A token is taken by whoever may take the next one. -/
theorem requestPause_accounts {hand' : Nat → Handed} {tokens' : Nat → List Nat}
    (accounts : w.Accounts book hand tokens)
    (takes : w.pause.Accounts hand tokens → w.pause.next + 1 < PauseRequests.tokenCount →
      w.pause.granted.Accounts (hand' w.pause.next) (tokens' w.pause.next)) :
    Answered (fun token v => World.Accounts book (hand' token) v (tokens' token)) (fun _ _ => True)
      (w.requestPause services) := by
  refine (requestPause_steady keeps accounts.steady).elim (fun token v requested => ?_)
    fun _ _ _ => trivial
  obtain ⟨rfl, steady, pause, requests⟩ := requested
  refine ⟨steady, fun few => ?_⟩
  rw [requests] at few
  obtain ⟨next, balanced⟩ := accounts.ledger (by omega)
  have room : w.pause.next + 1 < PauseRequests.tokenCount := by
    rw [next]
    exact few
  rw [pause, requests, ← next]
  exact ⟨(balanced.granted_turn room).1, takes balanced room⟩

/-- A token is given back by whoever may give it back. -/
theorem releasePause_accounts {token : Nat} {hand' : Handed} {tokens' : List Nat}
    (accounts : w.Accounts book hand tokens)
    (gives : w.pause.Accounts hand tokens → (w.pause.without token).Accounts hand' tokens') :
    Answered (fun _ v => World.Accounts book hand' v tokens') (fun _ _ => True)
      (w.releasePause services token) := by
  refine (releasePause_steady keeps accounts.steady token).elim (fun _ v released => ?_)
    fun _ _ _ => trivial
  obtain ⟨steady, pause, requests⟩ := released
  refine ⟨steady, fun few => ?_⟩
  rw [requests] at few
  obtain ⟨next, balanced⟩ := accounts.ledger few
  rw [pause, requests]
  exact ⟨next, gives balanced⟩

end Asking

end World

end Stepwise
