import Mathlib.Data.List.Count
import Stepwise.Proofs.Calls
import Stepwise.Proofs.Monitor.Delivery
import Stepwise.Proofs.Ownership

/-!
# Nothing is given back twice

The host may refuse any request at any time and go on calling the run. What the run still holds is
active all the same, and each reminder is held in one place, since a number is given up before the
host is asked to remove it. So the host is asked at most once to remove a reminder, and only while
that one is active, and each callback is made at most once.
-/

namespace Stepwise

variable {σ : Type}

/-- The call is refused and leaves the book as it is, or it is answered as the book answers. -/
def AnswersOrRefuses {α : Type} (book : σ → ReminderBook)
    (call : σ → Except ServiceError α × σ)
    (answer : ReminderBook → Except ServiceError α × ReminderBook) : Prop :=
  ∀ h, (∃ e, (call h).1 = .error e ∧ book (call h).2 = book h) ∨
    ((call h).1 = (answer (book h)).1 ∧ book (call h).2 = (answer (book h)).2)

/-- The reminders of a host are a book unless it refuses. Its countdown does what it likes. -/
structure Services.KeepsBookAtWill (services : Services σ) (book : σ → ReminderBook) : Prop where
  addReminder : ∀ label r,
    AnswersOrRefuses book (services.addReminder label r) (ReminderBook.add label r)
  removeReminder : ∀ id,
    AnswersOrRefuses book (services.removeReminder id) (ReminderBook.remove id)
  setPaused : ∀ paused,
    AnswersOrRefuses book (services.setPaused paused) (ReminderBook.setPaused paused)
  startCountdown : ∀ value unit route h, book (services.startCountdown value unit route h).2 = book h
  forceFinish : ∀ h, book (services.forceFinish h).2 = book h
  cancelCountdown : ∀ route h, book (services.cancelCountdown route h).2 = book h

/-- Whether the entry is this request, however it was answered. -/
def Entry.asks (request : Request) : Entry → Bool
  | .asked request' _ => decide (request' = request)
  | _ => false

/-- How often a request has been made. -/
def timesAsked (request : Request) (journal : List Entry) : Nat :=
  journal.countP (Entry.asks request)

/-- The reminders that are active after a journal, of which the latest entry is the first. -/
def activeIn : List Entry → List Nat
  | [] => []
  | .added _ _ (.ok id) :: earlier => id :: activeIn earlier
  | .asked (.removeReminder id) (.ok _) :: earlier => (activeIn earlier).erase id
  | _ :: earlier => activeIn earlier

/-- Every removal that was asked for was that of a reminder that was active then. -/
def RemovalsKnown (journal : List Entry) : Prop :=
  ∀ later id answer earlier, journal = later ++ .asked (.removeReminder id) answer :: earlier →
    id ∈ activeIn earlier

theorem timesAsked_asked (request request' : Request) (answer : Except ServiceError Unit)
    (journal : List Entry) :
    timesAsked request (.asked request' answer :: journal) =
      timesAsked request journal + if request' = request then 1 else 0 := by
  simp [timesAsked, List.countP_cons, Entry.asks]

theorem RemovalsKnown.cons {entry : Entry} {journal : List Entry} (known : RemovalsKnown journal)
    (active : ∀ id answer, entry = .asked (.removeReminder id) answer → id ∈ activeIn journal) :
    RemovalsKnown (entry :: journal) := by
  intro later id answer earlier split
  cases later with
  | nil =>
    cases split
    exact active id answer rfl
  | cons latest later =>
    cases split
    exact known later id answer earlier rfl

namespace Entry.IsNote

variable {place : List Nat → Prop} {entry : Entry}

theorem timesAsked (is_note : entry.IsNote place) (request : Request) (journal : List Entry) :
    timesAsked request (entry :: journal) = Stepwise.timesAsked request journal := by
  cases entry with
  | added _ _ _ => cases is_note
  | asked _ _ => cases is_note
  | _ => rfl

theorem activeIn (is_note : entry.IsNote place) (journal : List Entry) :
    activeIn (entry :: journal) = Stepwise.activeIn journal := by
  cases entry with
  | added _ _ _ => cases is_note
  | asked _ _ => cases is_note
  | _ => rfl

end Entry.IsNote

/-- Each duty to give back a reminder is the only one for it, the reminder is active, and the host
was not asked yet to remove it. A callback was made at most as often as it was attached, with those
that are still to be made. -/
structure World.Backs (book : σ → ReminderBook) (attached : List String) (w : World σ)
    (duties : List Duty) : Prop where
  sound : (book w.host).Sound
  journaled : ∀ id, (activeIn w.journal).count id = (book w.host).ids.count id
  active : ∀ id, duties.count (.giveBack id) ≤ (book w.host).ids.count id
  once : ∀ id, timesAsked (.removeReminder id) w.journal + duties.count (.giveBack id) ≤ 1
  unseen : ∀ id, (book w.host).lastId < id → timesAsked (.removeReminder id) w.journal = 0
  known : RemovalsKnown w.journal
  callbacks : ∀ name, timesAsked (.hook name) w.journal + duties.count (.callBack name) ≤
    attached.count name

namespace World.Backs

variable {book : σ → ReminderBook} {attached : List String} {w : World σ} {duties : List Duty}

theorem fewer {left : List Duty} (backs : w.Backs book attached duties)
    (le : ∀ d, left.count d ≤ duties.count d) : w.Backs book attached left where
  sound := backs.sound
  journaled := backs.journaled
  active id := Nat.le_trans (le _) (backs.active id)
  once id := Nat.le_trans (Nat.add_le_add_left (le _) _) (backs.once id)
  unseen := backs.unseen
  known := backs.known
  callbacks name := Nat.le_trans (Nat.add_le_add_left (le _) _) (backs.callbacks name)

theorem note {place : List Nat → Prop} {entry : Entry} (is_note : entry.IsNote place)
    (backs : w.Backs book attached duties) : (w.note entry).Backs book attached duties where
  sound := backs.sound
  journaled id := by
    show (activeIn (entry :: w.journal)).count id = _
    rw [is_note.activeIn]
    exact backs.journaled id
  active := backs.active
  once id := by
    show timesAsked _ (entry :: w.journal) + _ ≤ 1
    rw [is_note.timesAsked]
    exact backs.once id
  unseen id new := by
    show timesAsked _ (entry :: w.journal) = 0
    rw [is_note.timesAsked]
    exact backs.unseen id new
  known := backs.known.cons fun id answer same => by
    rw [same] at is_note
    cases is_note
  callbacks name := by
    show timesAsked _ (entry :: w.journal) + _ ≤ _
    rw [is_note.timesAsked]
    exact backs.callbacks name

/-- An active reminder that the run has to give back. -/
theorem mem_ids {id : Nat} (backs : w.Backs book attached (.giveBack id :: duties)) :
    id ∈ (book w.host).ids := by
  have := backs.active id
  rw [List.count_cons_self] at this
  exact List.count_pos_iff.mp (by omega)

/-- Whether the request has removed the reminder. -/
def removes (request : Request) (answer : Except ServiceError Unit) (id : Nat) : Nat :=
  match request, answer with
  | .removeReminder id', .ok _ => if id' = id then 1 else 0
  | _, _ => 0

theorem count_activeIn_asked (request : Request) (answer : Except ServiceError Unit)
    (journal : List Entry) (id : Nat) :
    (activeIn (.asked request answer :: journal)).count id =
      (activeIn journal).count id - removes request answer id := by
  cases request with
  | removeReminder id' =>
    cases answer with
    | ok _ => simp [activeIn, removes, List.count_erase, beq_iff_eq]
    | error e => simp [activeIn, removes]
  | _ => simp [activeIn, removes]

theorem count_giveBack_duties (request : Request) (id : Nat) :
    request.duties.count (.giveBack id) = if request = .removeReminder id then 1 else 0 := by
  cases request <;> simp [Request.duties, List.count_singleton]

theorem count_callBack_duties (request : Request) (name : String) :
    request.duties.count (.callBack name) = if request = .hook name then 1 else 0 := by
  cases request <;> simp [Request.duties, List.count_singleton]

/-- A request, however it was answered, when the book has removed what it was asked to. -/
theorem asked {request : Request} (backs : w.Backs book attached (request.duties ++ duties))
    (answer : Except ServiceError Unit) {h : σ} (sound : (book h).Sound)
    (last : (book h).lastId = (book w.host).lastId)
    (ids : ∀ id, (book h).ids.count id = (book w.host).ids.count id - removes request answer id) :
    World.Backs book attached { w with host := h, journal := .asked request answer :: w.journal }
      duties where
  sound := sound
  journaled id := by
    rw [count_activeIn_asked, ids, backs.journaled]
  active id := by
    have active := backs.active id
    rw [List.count_append, count_giveBack_duties] at active
    have le : removes request answer id ≤ if request = .removeReminder id then 1 else 0 := by
      cases request <;> cases answer <;> simp [removes]
    rw [ids]
    omega
  once id := by
    have once := backs.once id
    rw [List.count_append, count_giveBack_duties] at once
    rw [timesAsked_asked]
    omega
  unseen id new := by
    have new : (book w.host).lastId < id := last ▸ new
    have unseen := backs.unseen id new
    have other : request ≠ .removeReminder id := by
      rintro rfl
      have le := backs.sound.numbered id backs.mem_ids
      omega
    rw [timesAsked_asked, if_neg other, unseen]
  known := backs.known.cons fun id answer' same => by
    cases same
    have mem := backs.mem_ids
    rw [← List.count_pos_iff] at mem ⊢
    rwa [backs.journaled]
  callbacks name := by
    have callbacks := backs.callbacks name
    rw [List.count_append, count_callBack_duties] at callbacks
    rw [timesAsked_asked]
    omega

/-- A request that leaves the book as it is. -/
theorem asked_aside {request : Request} (backs : w.Backs book attached (request.duties ++ duties))
    (answer : Except ServiceError Unit) {h : σ} (same : book h = book w.host)
    (aside : ∀ id, removes request answer id = 0) :
    World.Backs book attached { w with host := h, journal := .asked request answer :: w.journal }
      duties := by
  refine backs.asked answer (same ▸ backs.sound) (by rw [same]) fun id => ?_
  rw [same, aside, Nat.sub_zero]

theorem ask_aside {request : Request} {call : σ → Except ServiceError Unit × σ}
    (backs : w.Backs book attached (request.duties ++ duties)) (same : ∀ h, book (call h).2 = book h)
    (aside : ∀ answer id, removes request answer id = 0) :
    Answered (fun _ w => World.Backs book attached w duties)
      (fun _ w => World.Backs book attached w duties) (w.ask request call) := by
  have called := same w.host
  unfold World.ask
  generalize call w.host = answered at called ⊢
  obtain ⟨answer, h⟩ := answered
  have asked := backs.asked_aside answer called (aside answer)
  cases answer <;> exact asked

section Asking

variable {services : Services σ} (keeps : services.KeepsBookAtWill book)
include keeps

theorem addReminder (backs : w.Backs book attached duties) (label : String) (r : Reminder) :
    Answered (fun id w => World.Backs book attached w (.giveBack id :: duties))
      (fun _ w => World.Backs book attached w duties) (w.addReminder services label r) := by
  have called := keeps.addReminder label r w.host
  unfold World.addReminder
  generalize services.addReminder label r w.host = answered at called ⊢
  obtain ⟨answer, h⟩ := answered
  rcases called with ⟨e, rfl, same⟩ | ⟨rfl, becomes⟩
  · have same : book h = book w.host := same
    refine ⟨?_, fun id => ?_, fun id => ?_, backs.once, ?_, backs.known.cons nofun, backs.callbacks⟩
    all_goals rw [same]
    · exact backs.sound
    · exact backs.journaled id
    · exact backs.active id
    · exact backs.unseen
  · obtain ⟨b', added, sound', ids'⟩ := backs.sound.add label r
    have last := ReminderBook.lastId_add backs.sound.willing label r
    have becomes : book h = ((book w.host).add label r).2 := becomes
    rw [added] at becomes last
    have new : (book w.host).lastId + 1 ∉ (book w.host).ids := by
      intro mem
      have := backs.sound.numbered _ mem
      omega
    simp only [added]
    refine ⟨becomes ▸ sound', fun id => ?_, fun id => ?_, fun id => ?_, fun id unseen => ?_,
      backs.known.cons nofun, fun name => ?_⟩
    · show (((book w.host).lastId + 1) :: activeIn w.journal).count id = _
      simp only [becomes, ids', List.count_cons, List.count_append, List.count_nil,
        backs.journaled]
      omega
    · have active := backs.active id
      simp only [becomes, ids', List.count_cons, List.count_append, List.count_nil, beq_iff_eq,
        Duty.giveBack.injEq]
      omega
    · have once := backs.once id
      have none := backs.unseen id
      have active := backs.active id
      show timesAsked (.removeReminder id) w.journal + _ ≤ 1
      rw [List.count_cons]
      simp only [beq_iff_eq, Duty.giveBack.injEq]
      split
      · next same =>
        rw [← same] at none active ⊢
        rw [List.count_eq_zero.mpr new] at active
        have := none (Nat.lt_succ_self _)
        omega
      · exact once
    · have unseen : b'.lastId < id := by
        rw [← show book h = b' from becomes]
        exact unseen
      have last : b'.lastId = (book w.host).lastId + 1 := last
      exact backs.unseen id (by omega)
    · have callbacks := backs.callbacks name
      show timesAsked (.hook name) w.journal + _ ≤ _
      rw [List.count_cons_of_ne (by simp)]
      exact callbacks

theorem removeReminder {id : Nat} (backs : w.Backs book attached (.giveBack id :: duties)) :
    Answered (fun _ w => World.Backs book attached w duties)
      (fun _ w => World.Backs book attached w duties) (w.removeReminder services id) := by
  have owed : w.Backs book attached (Request.duties (.removeReminder id) ++ duties) := backs
  have called := keeps.removeReminder id w.host
  unfold World.removeReminder World.ask
  generalize services.removeReminder id w.host = answered at called ⊢
  obtain ⟨answer, h⟩ := answered
  rcases called with ⟨e, rfl, same⟩ | ⟨rfl, becomes⟩
  · exact owed.asked_aside (.error e) same fun _ => rfl
  · obtain ⟨b', removed, sound', ids'⟩ := backs.sound.remove backs.mem_ids
    have last := ReminderBook.lastId_remove id (book w.host)
    have becomes : book h = ((book w.host).remove id).2 := becomes
    rw [removed] at becomes last
    simp only [removed]
    refine owed.asked (.ok ()) (becomes ▸ sound')
      (by rw [becomes]; exact last) fun other => ?_
    simp [becomes, ids', removes, List.count_erase, beq_iff_eq]

theorem setPaused {paused : Bool} (backs : w.Backs book attached duties) :
    Answered (fun _ w => World.Backs book attached w duties)
      (fun _ w => World.Backs book attached w duties) (w.setPaused services paused) := by
  have owed : w.Backs book attached (Request.duties (.setPaused paused) ++ duties) := backs
  have called := keeps.setPaused paused w.host
  unfold World.setPaused World.ask
  generalize services.setPaused paused w.host = answered at called ⊢
  obtain ⟨answer, h⟩ := answered
  rcases called with ⟨e, rfl, same⟩ | ⟨rfl, becomes⟩
  · exact owed.asked_aside (.error e) same fun _ => rfl
  · obtain ⟨b', set, sound', ids'⟩ := backs.sound.setPaused paused
    have last := ReminderBook.lastId_setPaused paused (book w.host)
    have becomes : book h = ((book w.host).setPaused paused).2 := becomes
    rw [set] at becomes last
    simp only [set]
    refine owed.asked (.ok ()) (becomes ▸ sound')
      (by rw [becomes]; exact last) fun id => ?_
    simp [becomes, ids', removes]

end Asking

/-- Callbacks are attached. -/
theorem attach (names : List String) (backs : w.Backs book attached duties) :
    w.Backs book (attached ++ names) (names.map Duty.callBack ++ duties) := by
  have no_reminder : ∀ id, (names.map Duty.callBack).count (.giveBack id) = 0 := by
    intro id
    refine List.count_eq_zero.mpr fun mem => ?_
    obtain ⟨name, -, same⟩ := List.mem_map.mp mem
    cases same
  have injective : Function.Injective Duty.callBack := fun _ _ same => Duty.callBack.inj same
  refine ⟨backs.sound, backs.journaled, fun id => ?_, fun id => ?_, backs.unseen, backs.known,
    fun name => ?_⟩
  · rw [List.count_append, no_reminder, Nat.zero_add]
    exact backs.active id
  · rw [List.count_append, no_reminder, Nat.zero_add]
    exact backs.once id
  · have callbacks := backs.callbacks name
    rw [List.count_append, List.count_append, List.count_map_of_injective names _ injective]
    omega

/-- Before the first call. -/
theorem of_makings {host : σ} (empty : book host = .empty) (pause : PauseRequests)
    {journal : List Entry} (makings : ∀ entry ∈ journal, entry.IsMaking) :
    World.Backs book [] ⟨host, pause, journal⟩ [] := by
  induction journal with
  | nil =>
    refine ⟨?_, fun id => ?_, fun id => Nat.zero_le _, fun id => Nat.zero_le _, fun id _ => rfl, ?_,
      fun name => Nat.zero_le _⟩
    · rw [empty]
      exact ReminderBook.sound_empty
    · rw [empty]
      rfl
    · intro later id answer earlier split
      simp at split
  | cons entry journal ih =>
    have is_note : entry.IsNote fun _ => True := by
      have making := makings entry List.mem_cons_self
      cases entry <;> trivial
    exact (ih fun other mem => makings other (List.mem_cons_of_mem entry mem)).note is_note

end World.Backs

/-- The world backs what the run has still to do, also after a request that was refused. -/
def backing {book : σ → ReminderBook} {services : Services σ}
    (keeps : services.KeepsBookAtWill book) (attached : List String) : Monitor services where
  Fine w duties := w.Backs book attached duties
  Failed _ w duties := w.Backs book attached duties
  Follows _ := True
  branch _ _ := trivial
  fewer := World.Backs.fewer
  failed_fewer := World.Backs.fewer
  pause _ b := ⟨b.sound, b.journaled, b.active, b.once, b.unseen, b.known, b.callbacks⟩
  failed_pause _ b := ⟨b.sound, b.journaled, b.active, b.once, b.unseen, b.known, b.callbacks⟩
  note := World.Backs.note
  added label r backs := backs.addReminder keeps label r
  asked serves backs := by
    cases serves with
    | removeReminder id => exact backs.removeReminder keeps
    | setPaused paused => exact backs.setPaused keeps
    | startCountdown value unit route =>
      exact backs.ask_aside (keeps.startCountdown value unit route) fun _ _ => rfl
    | forceFinish => exact backs.ask_aside keeps.forceFinish fun _ _ => rfl
    | cancelCountdown route => exact backs.ask_aside (keeps.cancelCountdown route) fun _ _ => rfl
    | hook name answer => exact backs.ask_aside (fun _ => rfl) fun _ _ => rfl

def Duty.id? : Duty → Option Nat
  | .giveBack id => some id
  | .callBack _ => none

theorem handleDuties_ids (handle : Option Nat) :
    (handleDuties handle).filterMap Duty.id? = handle.toList := by
  cases handle <;> rfl

theorem Block.duties_ids (b : Block) : b.duties.filterMap Duty.id? = b.held := by
  have hooks : (b.hooks.map LeaveHook.duty).filterMap Duty.id? = b.hooks.flatMap LeaveHook.held := by
    induction b.hooks with
    | nil => rfl
    | cons hook rest ih =>
      rw [List.map_cons, List.flatMap_cons, ← ih]
      cases hook <;> rfl
  rw [duties, held, List.filterMap_append, handleDuties_ids, hooks]

theorem blocksDuties_ids (blocks : List Block) :
    (blocksDuties blocks).filterMap Duty.id? = blocksHeld blocks := by
  induction blocks with
  | nil => rfl
  | cons b rest ih =>
    rw [blocksDuties_cons, blocksHeld_cons, List.filterMap_append, b.duties_ids, ih]

mutual

/-- What a run holds is what it has to give back. -/
theorem Execution.duties_ids : ∀ e : Execution, e.duties.filterMap Duty.id? = e.held
  | ⟨line, threads⟩ => by
    simp only [Execution.duties, Execution.held, List.filterMap_append, handleDuties_ids,
      blocksDuties_ids, threadsDuties_ids threads]

theorem threadsDuties_ids : ∀ threads : List Thread,
    (threadsDuties threads).filterMap Duty.id? = threadsHeld threads
  | [] => rfl
  | ⟨_, execution⟩ :: rest => by
    rw [threadsDuties, threadsHeld, List.filterMap_append, execution.duties_ids,
      threadsDuties_ids rest]

end

theorem count_held (e : Execution) (id : Nat) : e.held.count id = e.duties.count (.giveBack id) := by
  rw [← e.duties_ids]
  induction e.duties with
  | nil => rfl
  | cons d rest ih => cases d <;> simp [Duty.id?, List.filterMap_cons, List.count_cons, ih]

def HostBlock.callbackNames (b : HostBlock) : List String := b.callbacks.map (·.1)

/-- The callbacks that a call attaches. -/
def Call.callbackNames : Call → List String
  | .push block => block.callbackNames
  | .splice blocks => blocks.flatMap HostBlock.callbackNames
  | _ => []

theorem HostBlock.duties_block (b : HostBlock) :
    b.block.duties = b.callbackNames.map Duty.callBack := by
  rw [Block.duties, block, Block.handle_ofTemplate, callbackNames]
  simp only [handleDuties, Option.toList_none, List.map_nil, List.nil_append, List.map_map]
  rfl

theorem blocksDuties_hostBlocks (blocks : List HostBlock) :
    blocksDuties (blocks.map HostBlock.block) =
      (blocks.flatMap HostBlock.callbackNames).map Duty.callBack := by
  induction blocks with
  | nil => rfl
  | cons b rest ih =>
    rw [List.map_cons, blocksDuties_cons, ih, b.duties_block, List.flatMap_cons, List.map_append]

theorem Sequence.count_splice (s : Sequence) (blocks : List Block) (d : Duty) :
    (blocksDuties (s.splice blocks).ahead).count d =
      (blocksDuties blocks).count d + (blocksDuties s.ahead).count d := by
  cases now : s.ahead with
  | nil => simp only [splice, now, blocksDuties_nil, List.count_nil, Nat.add_zero]
  | cons b rest =>
    rw [ahead_splice now]
    simp only [blocksDuties_cons, blocksDuties_append, List.count_append]
    omega

namespace Run

/-- The world backs what the root has still to do. -/
def Backed (book : σ → ReminderBook) (attached : List String) (r : Run σ) : Prop :=
  r.world.Backs book attached r.root.duties

variable {book : σ → ReminderBook} {services : Services σ} {attached : List String} {r : Run σ}

theorem Followed.backed {α : Type} {keeps : services.KeepsBookAtWill book}
    {called : Except RunError α × Run σ} (followed : Followed (backing keeps attached) called) :
    called.2.Backed book attached := by
  obtain ⟨answer, r'⟩ := called
  cases answer with
  | ok a => exact followed.1
  | error e =>
    cases e with
    | alreadyStarted => cases followed
    | service e => exact followed.1

theorem backed_perform (keeps : services.KeepsBookAtWill book) (backed : r.Backed book attached)
    (call : Call) : (r.perform services call).Backed book (attached ++ call.callbackNames) := by
  have inside : r.root.Within (backing keeps attached).Follows := r.root.within_all fun _ => trivial
  have nothing_attached : ∀ {r' : Run σ}, r'.Backed book attached → r'.Backed book (attached ++ []) :=
    fun h => by rwa [List.append_nil]
  cases call with
  | start =>
    refine nothing_attached ?_
    cases started : r.root.started with
    | true =>
      simp only [perform, start, started, if_true]
      exact backed
    | false => exact (start_followed started inside backed).backed
  | dispatch path event => exact nothing_attached (dispatch_followed path event inside backed).backed
  | requestPause => exact nothing_attached (requestPause_followed inside backed).backed
  | releasePause token => exact nothing_attached (releasePause_followed token inside backed).backed
  | push block =>
    refine (backed.attach block.callbackNames).fewer fun d => ?_
    simp only [perform, push, Sequence.push, Execution.duties_eq, blocksDuties_append,
      blocksDuties_cons, blocksDuties_nil, block.duties_block, List.count_append, List.append_nil]
    omega
  | splice blocks =>
    refine (backed.attach (blocks.flatMap HostBlock.callbackNames)).fewer fun d => ?_
    rw [perform, splice, Sequence.splice_eq]
    simp only [Execution.duties_eq, Sequence.count_splice, blocksDuties_hostBlocks,
      List.count_append]
    omega

theorem backed_after (keeps : services.KeepsBookAtWill book) (backed : r.Backed book attached)
    (calls : List Call) :
    (r.after services calls).Backed book (attached ++ calls.flatMap Call.callbackNames) := by
  induction calls generalizing r attached with
  | nil => rwa [List.flatMap_nil, List.append_nil]
  | cons call calls ih =>
    have next := ih (backed_perform keeps backed call)
    rwa [List.append_assoc] at next

theorem Assembled.backed {blocks : List HostBlock} (assembled : r.Assembled blocks)
    (empty : book r.world.host = .empty) :
    r.Backed book (blocks.flatMap HostBlock.callbackNames) := by
  obtain ⟨description, reminder, root⟩ := assembled.root
  have made : r.world.Backs book [] [] := .of_makings empty r.world.pause assembled.journal
  have attached := made.attach (blocks.flatMap HostBlock.callbackNames)
  have duties : r.root.duties = (blocks.flatMap HostBlock.callbackNames).map Duty.callBack := by
    rw [Execution.duties_eq, root]
    simp [Execution.fresh, Sequence.fresh, handleDuties, blocksDuties_hostBlocks]
  rw [List.append_nil, List.nil_append, ← duties] at attached
  exact attached

/-- In every state that calls can lead to, whatever the host refuses: all that the run holds is
active and held in one place, every removal that was asked for was that of an active reminder and
the only one for it, and each callback was made at most as often as it was attached. -/
theorem removals_known (keeps : services.KeepsBookAtWill book) {blocks : List HostBlock}
    (assembled : r.Assembled blocks) (empty : book r.world.host = .empty) (calls : List Call) :
    let after := r.after services calls
    after.root.held.Nodup ∧ (∀ id ∈ after.root.held, id ∈ (book after.world.host).ids) ∧
      (book after.world.host).unknownRemovals = 0 ∧
      (∀ id, id ∈ activeIn after.world.journal ↔ id ∈ (book after.world.host).ids) ∧
      RemovalsKnown after.world.journal ∧
      (∀ id, timesAsked (.removeReminder id) after.world.journal ≤ 1) ∧
      ∀ name, timesAsked (.hook name) after.world.journal ≤
        (blocks.flatMap HostBlock.callbackNames ++ calls.flatMap Call.callbackNames).count name := by
  have backed := backed_after keeps (assembled.backed empty) calls
  refine ⟨?_, fun id held => ?_, backed.sound.known, fun id => ?_, backed.known, fun id => ?_,
    fun name => ?_⟩
  · rw [List.nodup_iff_count]
    intro id
    rw [count_held]
    have once := backed.once id
    omega
  · have active := backed.active id
    rw [← List.count_pos_iff, count_held] at held
    exact List.count_pos_iff.mp (by omega)
  · rw [← List.count_pos_iff, ← List.count_pos_iff, backed.journaled]
  · have once := backed.once id
    omega
  · have callbacks := backed.callbacks name
    omega

/-- A host that was told in advance which requests to refuse. -/
def wavering : Services (InMemory × List Bool) where
  addReminder label r := waver (InMemory.services.addReminder label r)
  removeReminder id := waver (InMemory.services.removeReminder id)
  setPaused paused := waver (InMemory.services.setPaused paused)
  startCountdown value unit route := waver (InMemory.services.startCountdown value unit route)
  forceFinish := waver InMemory.services.forceFinish
  cancelCountdown route := waver (InMemory.services.cancelCountdown route)
where
  waver {α : Type} (call : InMemory → Except ServiceError α × InMemory)
      (h : InMemory × List Bool) : Except ServiceError α × (InMemory × List Bool) :=
    match h.2 with
    | true :: plan => (.error ReminderBook.unavailable, (h.1, plan))
    | plan => ((call h.1).1, ((call h.1).2, plan.tail))

theorem answersOrRefuses_waver {α : Type} {call : InMemory → Except ServiceError α × InMemory}
    {answer : ReminderBook → Except ServiceError α × ReminderBook}
    (same : call = InMemory.onReminders answer) :
    AnswersOrRefuses (fun h => h.1.reminders) (wavering.waver call) answer := by
  intro h
  subst same
  unfold wavering.waver
  split
  · exact Or.inl ⟨_, rfl, rfl⟩
  · exact Or.inr ⟨rfl, rfl⟩

theorem reminders_waver {call : InMemory → Except ServiceError Unit × InMemory}
    (aside : ∀ m, (call m).2.reminders = m.reminders) (h : InMemory × List Bool) :
    (wavering.waver call h).2.1.reminders = h.1.reminders := by
  unfold wavering.waver
  split
  · rfl
  · exact aside h.1

theorem keepsBookAtWill_wavering : wavering.KeepsBookAtWill fun h => h.1.reminders where
  addReminder _ _ := answersOrRefuses_waver rfl
  removeReminder _ := answersOrRefuses_waver rfl
  setPaused _ := answersOrRefuses_waver rfl
  startCountdown _ _ _ := reminders_waver fun _ => rfl
  forceFinish := reminders_waver fun _ => rfl
  cancelCountdown _ := reminders_waver fun _ => rfl

/-- A condition with a reminder, in a workflow that has one too. The third request is refused. -/
def refusedOnce : Run (InMemory × List Bool) :=
  .ofWorkflow ⟨"soup", none, some ⟨10, .minutes⟩,
    [(Template.condition "salt?" [.task "add"] []).withReminder ⟨2, .minutes⟩]⟩
    (.empty, [false, false, true])

/-- The removal of the second reminder is refused, and it is not asked for again. -/
theorem removals_known_refusedOnce :
    let after := refusedOnce.after wavering [.start, .push ⟨.task "serve", [("bell", none)]⟩,
      .dispatch [] .yes, .dispatch [] .done, .dispatch [] .done, .dispatch [] .done]
    (after.root.finished = true ∧ after.world.host.1.reminders.ids = [2] ∧
      timesAsked (.removeReminder 2) after.world.journal = 1) ∧
    after.root.held.Nodup ∧ (∀ id ∈ after.root.held, id ∈ after.world.host.1.reminders.ids) ∧
      after.world.host.1.reminders.unknownRemovals = 0 ∧
      (∀ id, id ∈ activeIn after.world.journal ↔ id ∈ after.world.host.1.reminders.ids) ∧
      RemovalsKnown after.world.journal ∧
      (∀ id, timesAsked (.removeReminder id) after.world.journal ≤ 1) ∧
      ∀ name, timesAsked (.hook name) after.world.journal ≤ ["bell"].count name :=
  ⟨by decide +kernel,
    removals_known keepsBookAtWill_wavering (assembled_ofWorkflow _ _) rfl _⟩

end Run

end Stepwise
