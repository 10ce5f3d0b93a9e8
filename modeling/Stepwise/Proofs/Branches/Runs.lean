import Stepwise.Proofs.Asides
import Stepwise.Proofs.Branches
import Stepwise.Proofs.Ownership.Delivery
import Stepwise.Proofs.Removals

/-!
# How long the reminder of a condition lasts

From the answer to a condition on, the reminder is active as long as the last block of the chosen
branch has not left, and it is removed when that block leaves, unless the thread is cancelled
before. Which block that is, is settled when the branch is built: what the block puts after itself,
as a loop or a condition does, comes after the reminder is gone.
-/

namespace Stepwise

variable {σ : Type} {Good : σ → Prop} {services : Services σ}

namespace Execution

variable {e x : Execution} {path target : List Nat} {event : Event} {w : World σ}

/-- What an execution holds is held by every tree that it is a part of. -/
theorem held_of_thread {id : Nat} (found : e.thread? path = some x) (held : id ∈ x.held) :
    id ∈ e.held := by
  induction path generalizing e with
  | nil =>
    cases found
    exact held
  | cons branch path ih =>
    obtain ⟨t, mem, -, -, inside⟩ := thread?_found found
    obtain ⟨before, after, threads⟩ := List.append_of_mem mem
    rw [held_eq, threads, threadsHeld_append, threadsHeld_cons]
    simp only [List.mem_append]
    exact Or.inr (Or.inr (Or.inr (Or.inr (Or.inl (ih inside)))))

variable {id : Nat} {last : Template} {back : List Block}

/-- What holds of a thread that an event reaches holds of it in the tree. -/
theorem guards_found (reliable : services.Reliable Good) (settled : e.Settled)
    (quiet : e.HooksSucceed) (found : e.thread? path = some x) (event : Event) (deeper : List Nat)
    (good : Good w.host)
    (guards : (x.dispatch services event deeper w).Yields fun _ x' v =>
      Guards id last back x.address x' v) :
    (∃ x', (e.dispatch services event (path ++ deeper) w).part.thread? path = some x' ∧
      x'.address = x.address ∧ KeptIn id last back x'.ahead) ∨
    PartedWith id last x.address (e.dispatch services event (path ++ deeper) w).world.journal := by
  obtain ⟨x', v, delivered, -, moved⟩ := dispatch_becomes reliable (settled.thread? found)
    (quiet.thread? found) event deeper good
  have recorded : Onward (fun _ => True) (x.dispatch services event deeper w).world.journal
      (e.dispatch services event (path ++ deeper) w).world.journal :=
    (settled.carries found).onward _ event deeper w
  have in_place := thread?_dispatch reliable settled quiet found event deeper good
  rw [delivered] at guards recorded in_place
  rcases guards with kept | parted
  · refine Or.inl ⟨x', in_place ?_, moved.address, kept⟩
    rcases moved.rests with spent | settled'
    · obtain ⟨front, c, split, -⟩ := kept
      rw [spent.ahead] at split
      exact absurd split (by simp)
    · exact settled'.unfinished
  · exact Or.inr (parted.later recorded)

end Execution

theorem Services.KeepsBook.atWill {book : σ → ReminderBook} (keeps : services.KeepsBook book) :
    services.KeepsBookAtWill book where
  addReminder label r h := Or.inr (keeps.addReminder label r h)
  removeReminder id h := Or.inr (keeps.removeReminder id h)
  setPaused paused h := Or.inr (keeps.setPaused paused h)
  startCountdown := keeps.startCountdown
  forceFinish := keeps.forceFinish
  cancelCountdown := keeps.cancelCountdown

theorem World.Lossless.note {w : World σ} {entry : Entry} (lossless : w.Lossless)
    (no_refusal : entry.isRefusal = false) : (w.note entry).Lossless :=
  List.forall_mem_cons.mpr ⟨no_refusal, lossless⟩

theorem World.ask_granted {w : World σ} {request : Request}
    {call : σ → Except ServiceError Unit × σ} (grants : Grants Good call) (lossless : w.Lossless)
    (good : Good w.host) :
    (w.ask request call).2.Lossless ∧ Good (w.ask request call).2.host := by
  obtain ⟨a, host, called, good'⟩ := grants w.host good
  have answered : (w.ask request call).2 =
      { w with host, journal := .asked request (.ok a) :: w.journal } := by
    simp only [ask, called]
  rw [answered]
  have no_refusal : (Entry.asked request (.ok a)).isRefusal = false := by
    cases request <;> rfl
  exact ⟨lossless.note no_refusal, good'⟩

/-- The host grants everything, so no countdown is refused to be cancelled. -/
def granting (reliable : services.Reliable Good) : Monitor services where
  Fine w _ := w.Lossless ∧ Good w.host
  Failed _ w _ := w.Lossless ∧ Good w.host
  Follows _ := True
  branch _ _ := trivial
  fewer fine _ := fine
  failed_fewer fine _ := fine
  pause _ fine := fine
  failed_pause _ fine := fine
  note is_note fine := by
    refine ⟨fine.1.note ?_, fine.2⟩
    unfold Entry.IsNote at is_note
    unfold Entry.isRefusal
    split
    · exact is_note.elim
    · rfl
  added label r fine := by
    obtain ⟨id, host, called, good⟩ := reliable.addReminder label r _ fine.2
    refine .of_world ?_
    simp only [World.addReminder, called]
    exact ⟨fine.1.note rfl, good⟩
  asked serves fine := by
    refine .of_world ?_
    cases serves with
    | removeReminder id => exact World.ask_granted (reliable.removeReminder id) fine.1 fine.2
    | setPaused paused => exact World.ask_granted (reliable.setPaused paused) fine.1 fine.2
    | startCountdown value unit route =>
      exact World.ask_granted (reliable.startCountdown value unit route) fine.1 fine.2
    | forceFinish => exact World.ask_granted reliable.forceFinish fine.1 fine.2
    | cancelCountdown route => exact World.ask_granted (reliable.cancelCountdown route) fine.1 fine.2
    | hook name answer => exact ⟨fine.1.note rfl, fine.2⟩

namespace Run

/-- In the thread at the path the block that keeps the reminder is ahead, and behind it are those
that were behind the condition. -/
def KeptAt (id : Nat) (last : Template) (back : List Block) (path : List Nat) (r : Run σ) : Prop :=
  r.root.isRunning = true ∧ ∃ x back', r.root.thread? path = some x ∧ x.address = path ∧
    back <:+: back' ∧ KeptIn id last back' x.ahead

/-- The call ends a group around the thread at the path, with an event for another thread of it. -/
def Cancels (services : Services σ) (path : List Nat) (r : Run σ) (call : Call) : Prop :=
  ∃ target event, call = .dispatch target event ∧
    r.root.EndsAround services event path target r.world

/-- One of the calls does so. -/
def CancelledBy (services : Services σ) (path : List Nat) (r : Run σ) (calls : List Call) : Prop :=
  ∃ earlier call further, calls = earlier ++ call :: further ∧
    (r.after services earlier).Cancels services path call

variable {r : Run σ} {id : Nat} {last : Template} {back back' : List Block} {path : List Nat}
  {x : Execution}

/-- A run in which the block is still ahead goes on. -/
theorem Sound.keptAt_dispatch (reliable : services.Reliable Good) (sound : r.Sound Good)
    (settled : r.root.Settled) (target : List Nat) (event : Event)
    (found : (r.perform services (.dispatch target event)).root.thread? path = some x)
    (address : x.address = path) (behind : back <:+: back') (kept : KeptIn id last back' x.ahead) :
    (r.perform services (.dispatch target event)).KeptAt id last back path := by
  refine ⟨?_, x, back', found, address, behind, kept⟩
  obtain ⟨e', v, delivered, -, moved⟩ :=
    Execution.dispatch_becomes reliable settled sound.hooks event target sound.good
  have becomes : r.perform services (.dispatch target event) = ⟨e', v⟩ := by
    simp only [perform, dispatch, delivered, ofOutcome]
  rw [becomes] at found ⊢
  rcases moved.rests with spent | settled'
  · obtain ⟨-, rfl⟩ := spent.thread? found
    obtain ⟨front, c, split, -⟩ := kept
    rw [spent.ahead] at split
    exact absurd split (by simp)
  · exact settled'.isRunning

/-- What holds of a thread that an event reaches holds of it in the run. -/
theorem Sound.guarded_dispatch (reliable : services.Reliable Good) (sound : r.Sound Good)
    (settled : r.root.Settled) (found : r.root.thread? path = some x) (address : x.address = path)
    (behind : back <:+: back') (event : Event) (deeper : List Nat)
    (guards : (x.dispatch services event deeper r.world).Yields fun _ x' v =>
      Guards id last back' x.address x' v) :
    (r.perform services (.dispatch (path ++ deeper) event)).KeptAt id last back path ∨
      PartedWith id last path
        (r.perform services (.dispatch (path ++ deeper) event)).world.journal := by
  have found' := Execution.guards_found reliable settled sound.hooks found event deeper sound.good
    guards
  rw [address] at found'
  refine found'.imp_left ?_
  rintro ⟨x', in_place, address', kept⟩
  exact sound.keptAt_dispatch reliable settled _ event in_place address' behind kept

/-- Blocks that a host adds come behind the current one. -/
theorem KeptAt.with_ahead (kept : r.KeptAt id last back path) {ahead : List Block}
    (current : ∀ b rest, r.root.ahead = b :: rest →
      ∃ before after, ahead = b :: (before ++ rest ++ after)) :
    KeptAt id last back path { r with root := { r.root with ahead } } := by
  obtain ⟨running, x, back', found, address, behind, front, c, split, keeps⟩ := kept
  cases path with
  | cons branch path =>
    rw [Execution.thread?_cons] at found
    refine ⟨running, x, back', ?_, address, behind, front, c, split, keeps⟩
    rw [Execution.thread?_cons]
    exact found
  | nil =>
    cases found
    cases front with
    | nil =>
      obtain ⟨before, after, rfl⟩ := current c back' split
      refine ⟨running, _, before ++ back' ++ after, rfl, address, ?_, [], c, rfl, keeps⟩
      exact behind.trans ⟨before, after, rfl⟩
    | cons b front =>
      obtain ⟨before, after, rfl⟩ := current b (front ++ c :: back') split
      refine ⟨running, _, back' ++ after, rfl, address, ?_, b :: (before ++ front), c, ?_, keeps⟩
      · exact behind.trans ⟨[], after, rfl⟩
      · simp

/-- A call leaves the reminder with the block that keeps it, or makes that block leave, or cancels
the thread. -/
theorem Sound.kept_perform (reliable : services.Reliable Good) (sound : r.Sound Good)
    (inOrder : r.InOrder) (kept : r.KeptAt id last back path) (call : Call) :
    (r.perform services call).KeptAt id last back path ∨
      PartedWith id last path (r.perform services call).world.journal ∨
      r.Cancels services path call := by
  obtain ⟨running, x, back', found, address, behind, kept_in⟩ := kept
  have settled := sound.settled running
  cases call with
  | start =>
    have started : r.root.started = true := by
      simp only [Sequence.isRunning, Bool.and_eq_true] at running
      exact running.1.1
    simp only [perform, start, started, if_true]
    exact Or.inl ⟨running, x, back', found, address, behind, kept_in⟩
  | dispatch target event =>
    by_cases reaches : path <+: target
    · obtain ⟨deeper, rfl⟩ := reaches
      exact (sound.guarded_dispatch reliable settled found address behind event deeper
        (Execution.dispatch_guards kept_in event deeper r.world)).imp_right Or.inl
    · have quiet := ((Execution.hooksSucceed_iff _).mp sound.hooks).2
      rcases Execution.thread?_aside reliable settled quiet inOrder.addressed found event reaches
        sound.good with ⟨found', -⟩ | ends
      · exact Or.inl (sound.keptAt_dispatch reliable settled target event found' address behind kept_in)
      · exact Or.inr (Or.inr ⟨target, event, rfl, ends⟩)
  | push c =>
    refine Or.inl (KeptAt.with_ahead ⟨running, x, back', found, address, behind, kept_in⟩ ?_)
    exact fun b rest now => ⟨[], [c.block], Sequence.ahead_push now c.block⟩
  | splice blocks =>
    refine Or.inl ?_
    rw [perform, splice, Sequence.splice_eq]
    refine KeptAt.with_ahead ⟨running, x, back', found, address, behind, kept_in⟩ ?_
    intro b rest now
    refine ⟨blocks.map HostBlock.block, [], ?_⟩
    rw [List.append_nil]
    exact Sequence.ahead_splice now _
  | requestPause => exact Or.inl ⟨running, x, back', found, address, behind, kept_in⟩
  | releasePause token => exact Or.inl ⟨running, x, back', found, address, behind, kept_in⟩

/-- So it is with the calls that follow, one after the other. -/
theorem Sound.kept_after (reliable : services.Reliable Good) (sound : r.Sound Good)
    (inOrder : r.InOrder)
    (state : r.KeptAt id last back path ∨ PartedWith id last path r.world.journal)
    (calls : List Call) (all : ∀ call ∈ calls, call.Succeeds) :
    (r.after services calls).KeptAt id last back path ∨
      PartedWith id last path (r.after services calls).world.journal ∨
      r.CancelledBy services path calls := by
  induction calls generalizing r with
  | nil => exact state.imp_right Or.inl
  | cons call calls ih =>
    have next : ((r.perform services call).KeptAt id last back path ∨
          PartedWith id last path (r.perform services call).world.journal) ∨
        r.Cancels services path call := by
      rcases state with kept | parted
      · exact or_assoc.mpr (sound.kept_perform reliable inOrder kept call)
      · exact Or.inl (Or.inr (parted.later (r.perform_onward services call)))
    rcases next with state' | cancels
    · have sound' := sound_perform reliable r call (all call List.mem_cons_self) sound
      have inOrder' := inOrder_perform services r call inOrder
      have later := ih sound' inOrder' state' fun c mem => all c (List.mem_cons_of_mem call mem)
      refine later.imp_right (Or.imp_right ?_)
      rintro ⟨earlier, other, further, rfl, cancels⟩
      exact ⟨call :: earlier, other, further, rfl, cancels⟩
    · exact Or.inr (Or.inr ⟨[], call, calls, rfl, cancels⟩)

variable {book : σ → ReminderBook} {attached : List String}

theorem Followed.lossless {α : Type} {reliable : services.Reliable Good}
    {called : Except RunError α × Run σ} (followed : Followed (granting reliable) called) :
    called.2.world.Lossless := by
  obtain ⟨answer, r'⟩ := called
  cases answer with
  | ok a => exact followed.1.1
  | error e =>
    cases e with
    | alreadyStarted => cases followed
    | service e => exact followed.1.1

theorem Sound.lossless_perform (reliable : services.Reliable Good) (sound : r.Sound Good)
    (lossless : r.world.Lossless) (call : Call) : (r.perform services call).world.Lossless := by
  have inside : r.root.Within (granting reliable).Follows := r.root.within_all fun _ => trivial
  have fine : (granting reliable).Fine r.world r.root.duties := ⟨lossless, sound.good⟩
  cases call with
  | start =>
    cases started : r.root.started with
    | true =>
      simp only [perform, start, started, if_true]
      exact lossless
    | false => exact (start_followed started inside fine).lossless
  | dispatch path event => exact (dispatch_followed path event inside fine).lossless
  | push block => exact lossless
  | splice blocks => exact lossless
  | requestPause => exact (requestPause_followed inside fine).lossless
  | releasePause token => exact (releasePause_followed token inside fine).lossless

theorem Assembled.lossless {blocks : List HostBlock} (assembled : r.Assembled blocks) :
    r.world.Lossless := by
  intro entry mem
  have making := assembled.journal entry mem
  cases entry with
  | asked _ _ => cases making
  | _ => rfl

/-- A reminder that was asked to be removed is not held any more. -/
theorem not_held_of_parted (backed : r.Backed book attached)
    (parted : PartedWith id last path r.world.journal) : id ∉ r.root.held := by
  obtain ⟨b, later, earlier, index, -, journal⟩ := parted
  have asked : 0 < timesAsked (.removeReminder id) r.world.journal := by
    rw [journal]
    refine List.countP_pos_iff.mpr ⟨.asked (.removeReminder id) (.ok ()), by simp, ?_⟩
    simp [Entry.asks]
  have once := backed.once id
  rw [← List.count_eq_zero, count_held]
  omega

theorem held_of_keptAt (kept : r.KeptAt id last back path) : id ∈ r.root.held := by
  obtain ⟨-, x, back', found, -, -, front, c, split, keeps⟩ := kept
  refine Execution.held_of_thread found ?_
  rw [Execution.held_eq, split]
  simp [Block.held, keeps.hooks, LeaveHook.held]

/-- The reminder of a condition is active from the answer on until the last block of the chosen
branch leaves, and the last that this block does is to have it removed: unless the thread is
cancelled, in which case a group around it has ended. -/
theorem reminder_kept_by_last (reliable : services.Reliable Good) (keeps : services.KeepsBook book)
    {blocks : List HostBlock} (assembled : r.Assembled blocks) (good : Good r.world.host)
    (empty : book r.world.host = .empty) (succeed : ∀ b ∈ blocks, b.Succeeds) (calls : List Call)
    (all : ∀ call ∈ calls, call.Succeeds)
    (running : (r.after services calls).root.isRunning = true) {b : Block} {rest : List Block}
    (found : (r.after services calls).root.thread? path = some x) (now : x.ahead = b :: rest)
    (holds : b.handle = some id) {event : Event} (chosen : (b.branchOn event).getLast? = some last)
    (more : List Call) (all_more : ∀ call ∈ more, call.Succeeds) :
    let answered := (r.after services calls).perform services (.dispatch path event)
    let later := answered.after services more
    (later.KeptAt id last rest path ∧ id ∈ (book later.world.host).ids) ∨
      (PartedWith id last path later.world.journal ∧ id ∉ (book later.world.host).ids) ∨
      answered.CancelledBy services path more := by
  intro answered later
  have step (r : Run σ) (call : Call) (succeeds : call.Succeeds)
      (h : r.Sound Good ∧ r.Balanced book ∧ r.world.Lossless) :
      (r.perform services call).Sound Good ∧ (r.perform services call).Balanced book ∧
        (r.perform services call).world.Lossless :=
    ⟨sound_perform reliable r call succeeds h.1, balanced_perform keeps r call succeeds h.2.1,
      h.1.lossless_perform reliable h.2.2 call⟩
  have fresh := assembled.toFresh
  have before := after_induction services step
    ⟨fresh.sound succeed good, fresh.balanced empty succeed, assembled.lossless⟩ calls all
  have all_answered : ∀ call ∈ Call.dispatch path event :: more, call.Succeeds :=
    List.forall_mem_cons.mpr ⟨trivial, all_more⟩
  obtain ⟨-, balanced, lossless⟩ :=
    after_induction services step before (.dispatch path event :: more) all_answered
  have backed := backed_after keeps.atWill
    (backed_after keeps.atWill (assembled.backed empty) calls) (.dispatch path event :: more)
  have address : x.address = path := by
    have inside := ((fresh.inOrder_after services calls).addressed.thread? found).2
    rwa [fresh.address_after services calls, List.nil_append] at inside
  have settled := before.1.settled running
  have first := before.1.guarded_dispatch reliable settled found address (List.infix_refl rest) event
    [] (Execution.answer_guards (settled.thread? found).isRunning now holds chosen _)
  rw [List.append_nil] at first
  have sound := sound_perform reliable _ (.dispatch path event) trivial before.1
  have inOrder :=
    inOrder_perform services _ (.dispatch path event) (fresh.inOrder_after services calls)
  rcases sound.kept_after reliable inOrder first more all_more with kept | parted | cancelled
  · exact Or.inl ⟨kept, balanced.active_of_held (held_of_keptAt kept)⟩
  · refine Or.inr (Or.inl ⟨parted, fun active => ?_⟩)
    exact not_held_of_parted backed parted (balanced.held_of_active lossless active)
  · exact Or.inr (Or.inr cancelled)

/-- A condition with a reminder, whose branch ends with a loop that makes two passes. -/
def saltedSoup : Run InMemory :=
  .ofWorkflow ⟨"soup", none, none,
    [(Template.condition "salt?" [.task "grind", .counted 2 [.task "add"]] []).withReminder
      ⟨2, .minutes⟩, .task "serve"]⟩ .empty

/-- While the block before the loop is current, the loop keeps the reminder. -/
theorem reminder_kept_by_last_saltedSoup :
    let now := saltedSoup.after InMemory.services [.start]
    let answered := now.perform InMemory.services (.dispatch [] .yes)
    let later := answered.after InMemory.services [.dispatch [] (.tick .zero)]
    let last := Template.counted 2 [.task "add"]
    (now.root.isRunning = true ∧ (now.root.current?.map (·.handle)) = some (some 1) ∧
      (now.root.current?.bind fun b => (b.branchOn .yes).getLast?) = some last ∧
      later.root.current?.map Block.shownText = some "grind" ∧
      later.world.host.reminders.ids = [1]) ∧
    ((later.KeptAt 1 last [.ofTemplate (.task "serve")] [] ∧
        1 ∈ later.world.host.reminders.ids) ∨
      (PartedWith 1 last [] later.world.journal ∧ 1 ∉ later.world.host.reminders.ids) ∨
      answered.CancelledBy InMemory.services [] [.dispatch [] (.tick .zero)]) := by
  refine ⟨by decide +kernel, ?_⟩
  refine reminder_kept_by_last InMemory.reliable InMemory.keepsBook
    (x := (saltedSoup.after InMemory.services [.start]).root)
    (b := { Block.ofTemplate ((Template.condition "salt?" [.task "grind",
      .counted 2 [.task "add"]] []).withReminder ⟨2, .minutes⟩) with handle := some 1 })
    (assembled_ofWorkflow _ _) InMemory.willing_empty rfl ?_ [.start] ?_ ?_ rfl ?_ rfl rfl _ ?_
  · intro c mem
    obtain ⟨t, -, rfl⟩ := List.mem_map.mp mem
    exact HostBlock.succeeds_plain t
  · exact List.forall_mem_singleton.mpr trivial
  · decide +kernel
  · decide +kernel
  · exact List.forall_mem_singleton.mpr trivial

/-- But once the loop has been entered, its first pass is current and another one is to come, and
the reminder is gone. -/
theorem reminder_gone_saltedSoup :
    let answered := saltedSoup.after InMemory.services [.start, .dispatch [] .yes]
    let later := answered.perform InMemory.services (.dispatch [] .done)
    answered.world.host.reminders.ids = [1] ∧ later.world.host.reminders.ids = [] ∧
      later.root.ahead.map Block.shownText = ["add", "2 more times...", "serve"] := by
  decide +kernel

end Run

end Stepwise
