import Stepwise.Proofs.Delivery
import Stepwise.Proofs.Records

/-!
# How a journal grows

Entries are added to a journal and none is taken away. A countdown that has been started is followed
at once by the entry that its wait has been entered, and the address in that entry is the route of
the countdown. This holds of every operation, whatever the host answers.
-/

namespace Stepwise

variable {σ : Type}

/-- No countdown was started, and if an event was passed over then with a notice that may be given.
-/
def Entry.IsInert (given : Notice → Prop) : Entry → Prop
  | .asked (.startCountdown _ _ _) (.ok _) => False
  | .passedOver notice => given notice
  | _ => True

/-- The second journal goes on from the first. -/
inductive Onward (given : Notice → Prop) (earlier : List Entry) : List Entry → Prop
  | refl : Onward given earlier earlier
  | aside {later : List Entry} {entry : Entry} (inert : entry.IsInert given)
      (onward : Onward given earlier later) : Onward given earlier (entry :: later)
  | countdown {later : List Entry} {value : Int64} {unit : TimeUnit} {route : List Nat}
      {index : Nat} {text : String} (onward : Onward given earlier later) :
      Onward given earlier
        (.entered route index text :: .asked (.startCountdown value unit route) (.ok ()) :: later)

namespace Onward

variable {given : Notice → Prop} {first second third : List Entry}

theorem trans (onward : Onward given first second) (further : Onward given second third) :
    Onward given first third := by
  induction further with
  | refl => exact onward
  | aside entry _ ih => exact .aside entry ih
  | countdown _ ih => exact .countdown ih

theorem suffix (onward : Onward given first second) : first <:+ second := by
  induction onward with
  | refl => exact List.suffix_refl _
  | aside _ _ ih => exact ih.trans (List.suffix_cons _ _)
  | countdown _ ih => exact (ih.trans (List.suffix_cons _ _)).trans (List.suffix_cons _ _)

/-- One notice more is a notice that may be given. -/
theorem given_of_passedOver {notice : Notice}
    (onward : Onward given first (.passedOver notice :: first)) : given notice := by
  cases onward with
  | aside entry _ => exact entry

/-- A countdown that was started is the countdown of the wait that is entered next. -/
theorem entered_at_route (onward : Onward given [] second) {later earlier : List Entry}
    {value : Int64} {unit : TimeUnit} {route : List Nat}
    (started : second = later ++ .asked (.startCountdown value unit route) (.ok ()) :: earlier) :
    ∃ after index text, later = after ++ [.entered route index text] := by
  induction onward generalizing later with
  | refl => simp at started
  | aside entry _ ih =>
    cases later with
    | nil =>
      cases started
      exact False.elim entry
    | cons last later =>
      obtain ⟨after, index, text, rfl⟩ := ih (List.cons.inj started).2
      exact ⟨last :: after, index, text, rfl⟩
  | countdown _ ih =>
    cases later with
    | nil => cases started
    | cons last later =>
      cases later with
      | nil =>
        cases started
        exact ⟨[], _, _, rfl⟩
      | cons last' later =>
        obtain ⟨after, index, text, rfl⟩ := ih (List.cons.inj (List.cons.inj started).2).2
        exact ⟨last :: last' :: after, index, text, rfl⟩

end Onward

variable {services : Services σ} {given : Notice → Prop} {earlier : List Entry} {w : World σ}

namespace World

theorem ask_onward (request : Request) (call : σ → Except ServiceError Unit × σ)
    (inert : ∀ answer, (Entry.asked request answer).IsInert given) (w : World σ) :
    Onward given w.journal (w.ask request call).2.journal := .aside (inert _) .refl

theorem addReminder_onward (label : String) (r : Reminder) (w : World σ) :
    Onward given w.journal (w.addReminder services label r).2.journal := .aside trivial .refl

theorem removeReminder_onward (id : Nat) (w : World σ) :
    Onward given w.journal (w.removeReminder services id).2.journal :=
  ask_onward (.removeReminder id) _ (fun _ => trivial) w

theorem requestPause_onward (w : World σ) :
    Onward given w.journal (w.requestPause services).2.journal := by
  have noted : Onward given w.journal (w.note (.pauseRequested w.pause.next)).journal :=
    .aside trivial .refl
  have asked (v : World σ) : Onward given v.journal (v.setPaused services true).2.journal :=
    ask_onward (.setPaused true) _ (fun _ => trivial) v
  unfold requestPause PauseRequests.request
  by_cases paused : w.pause.isPaused
  · simp only [paused, if_true]
    exact noted
  · simp only [paused]
    have further := noted.trans (asked _)
    generalize setPaused services true (w.note _) = called at further ⊢
    obtain ⟨answer, v⟩ := called
    cases answer with
    | ok _ => exact further
    | error e => exact further

theorem noteBuilt_onward (templates : List Template) (w : World σ) :
    Onward given w.journal (w.noteBuilt templates).journal := by
  induction templates generalizing w with
  | nil => exact .refl
  | cons t rest ih =>
    have noted := ih (w.note (.built t))
    have first : Onward given w.journal (w.note (.built t)).journal := .aside trivial .refl
    simpa [noteBuilt, note] using first.trans noted

theorem noteOpened_onward (branches : List (List Template)) (w : World σ) :
    Onward given w.journal (w.noteOpened branches).journal := by
  induction branches generalizing w with
  | nil => exact .refl
  | cons templates rest ih =>
    have opened : Onward given w.journal (w.note (.opened none none)).journal :=
      .aside trivial .refl
    exact (opened.trans (noteBuilt_onward templates _)).trans (ih _)

end World

theorem Outcome.bind_onward {τ υ α β : Type} {o : Outcome σ τ α} {wrap : τ → υ}
    {next : α → τ → World σ → Outcome σ υ β} (first : Onward given earlier o.world.journal)
    (goes_on : ∀ a part (v : World σ), Onward given v.journal (next a part v).world.journal) :
    Onward given earlier (o.bind wrap next).world.journal :=
  bind_left (P := fun _ v => Onward given earlier v.journal) first fun a _ =>
    first.trans (goes_on a _ _)

theorem Entry.IsParting.inert {place : List Nat → Prop} {entry : Entry}
    (parting : entry.IsParting place) : entry.IsInert given := by
  unfold IsParting at parting
  split at parting
  · trivial
  · trivial
  · trivial
  · trivial
  · trivial
  · exact parting.elim

/-- What is parted with starts no countdown, and no event is passed over with it. -/
theorem Adds.onward {first second : List Entry}
    (adds : Adds (Entry.IsParting fun _ => True) first second) : Onward given first second := by
  obtain ⟨new, rfl, each⟩ := adds
  induction new with
  | nil => exact .refl
  | cons entry new ih =>
    obtain ⟨parting, each⟩ := List.forall_mem_cons.mp each
    exact .aside parting.inert (ih each)

theorem Block.leave_onward (b : Block) (w : World σ) :
    Onward given w.journal (b.leave services w).world.journal :=
  Adds.onward (b.leave_adds w)

namespace Sequence

theorem noteLeft_onward (s : Sequence) (b : Block) (w : World σ) :
    Onward given w.journal (s.noteLeft b w).journal := .aside trivial .refl

theorem unregister_onward (s : Sequence) (w : World σ) :
    Onward given w.journal (s.unregister services w).world.journal :=
  Adds.onward (s.unregister_adds w)

theorem halt_onward (s : Sequence) (w : World σ) :
    Onward given w.journal (s.halt services w).world.journal :=
  Adds.onward (s.halt_adds trivial w)

end Sequence

theorem Execution.cancel_onward (e : Execution) (w : World σ) :
    Onward given w.journal (e.cancel services w).world.journal :=
  Adds.onward (cancel_adds (e.within_all fun _ => trivial) w)

theorem cancelThreads_onward (threads : List Thread) (w : World σ) :
    Onward given w.journal (cancelThreads services threads w).world.journal :=
  Adds.onward (cancelThreads_adds (allWithin_all (fun _ => trivial) threads) w)

theorem Join.complete_onward (j : Join) (threads : List Thread) (w : World σ) :
    Onward given w.journal (j.complete services threads w).world.journal :=
  Adds.onward (j.complete_adds (allWithin_all (fun _ => trivial) threads) w)

/-- A block has arrived: the latest entry may tell that the countdown of its wait was started. -/
inductive Arrives (given : Notice → Prop) (address : List Nat) (earlier : List Entry) :
    List Entry → Prop
  | still {later : List Entry} (onward : Onward given earlier later) :
      Arrives given address earlier later
  | started {later : List Entry} {value : Int64} {unit : TimeUnit}
      (onward : Onward given earlier later) :
      Arrives given address earlier (.asked (.startCountdown value unit address) (.ok ()) :: later)

theorem Arrives.entered {s : Sequence} {b : Block}
    (arrives : Arrives given s.address earlier w.journal) :
    Onward given earlier (s.noteEntered b w).journal := by
  unfold Sequence.noteEntered World.note
  generalize w.journal = later at arrives
  cases arrives with
  | still onward => exact .aside trivial onward
  | started onward => exact .countdown onward

theorem Block.register_onward (b : Block) (w : World σ) :
    Onward given w.journal (b.register services w).2.journal := by
  unfold register
  split
  · next r _ _ =>
    have added : Onward given w.journal (w.addReminder services b.shownText r).2.journal :=
      World.addReminder_onward b.shownText r w
    split
    · next called => rwa [called] at added
    · next called => rwa [called] at added
  · exact .refl

/-- A wait is started or its countdown is refused. -/
theorem Sleep.start_onward (s : Sleep) (address : List Nat) (w : World σ) :
    (s.start services address w).Ends
      (fun _ _ v => Arrives given address w.journal v.journal)
      fun _ _ v => Onward given w.journal v.journal := by
  have countdown (v : World σ) (onward : Onward given w.journal v.journal) :
      Answered (fun _ u => Arrives given address w.journal u.journal)
        (fun _ u => Onward given w.journal u.journal)
        (v.startCountdown services s.value s.unit address) := by
    unfold World.startCountdown World.ask
    generalize services.startCountdown s.value s.unit address v.host = answered
    obtain ⟨answer, host⟩ := answered
    cases answer with
    | ok _ => exact .started onward
    | error e => exact .aside trivial onward
  have requested : Onward given w.journal (w.requestPause services).2.journal :=
    World.requestPause_onward w
  unfold start
  simp only
  split
  · split
    · next called => rwa [called] at requested
    · next called =>
      rw [called] at requested
      exact (countdown _ requested).elim (fun _ _ arrives => arrives) fun _ _ onward => onward
  · exact (countdown w .refl).elim (fun _ _ arrives => arrives) fun _ _ onward => onward

/-- Entering adds to the journal only what an operation adds. -/
def Execution.EntersOnward (services : Services σ) (given : Notice → Prop) (e : Execution) : Prop :=
  ∀ w : World σ, Onward given w.journal (e.enter services w).world.journal

theorem startThreads_onward {branches : List (List Template)}
    (enters : ∀ templates ∈ branches, ∀ address,
      (startedThread address templates).EntersOnward services given)
    (address : List Nat) (first : Nat) (started : List Thread) (join : Join) (w : World σ) :
    Onward given w.journal
      (startThreads services (threadsFrom address first branches) started join w).world.journal := by
  induction branches generalizing first started join w with
  | nil =>
    rw [threadsFrom, startThreads]
    exact .refl
  | cons templates rest ih =>
    have rest_enters := fun ts mem => enters ts (List.mem_cons_of_mem templates mem)
    have further := ih rest_enters (first + 1)
    rw [startThreads_next]
    refine Outcome.bind_onward (enters templates List.mem_cons_self _ w) fun _ e v => ?_
    split
    · refine Outcome.bind_onward (join.complete_onward _ v) fun ended part u => ?_
      cases ended with
      | true => exact .refl
      | false => exact further started part.1 u
    · exact further (started ++ [⟨first, e⟩]) join v

theorem Block.arrive_onward (b : Block) {address : List Nat}
    (enters : ∀ join, b.activity = .parallel join → ∀ templates ∈ join.branches, ∀ address,
      (startedThread address templates).EntersOnward services given) (w : World σ) :
    (Block.arrive services address b w).Ends
      (fun _ _ v => Arrives given address w.journal v.journal)
      fun _ _ v => Onward given w.journal v.journal := by
  cases activity : b.activity with
  | task | condition | asked =>
    rw [Block.arrive, activity]
    exact .still .refl
  | counted remaining entered body =>
    rw [Block.arrive_counted services address w activity]
    split
    · exact .still (w.noteBuilt_onward body)
    · exact .still .refl
  | sleep s =>
    by_cases positive : 0 < s.value
    · rw [Block.arrive, activity]
      simp only [positive, if_true]
      refine Outcome.Ends.within ((s.start_onward address w).bind (fun _ _ _ onward => onward) ?_)
        (fun _ _ _ onward => onward) fun _ _ _ arrives => arrives
      intro _ _ _ arrives
      exact arrives
    · rw [Block.arrive_elapsed services address w activity positive]
      exact .still .refl
  | parallel join =>
    by_cases none : join.branches = []
    · rw [Block.arrive_branchless services address w activity none]
      exact .still .refl
    · have run := (w.noteOpened_onward join.branches).trans
        (startThreads_onward (enters join activity) address 0 [] join.opened _)
      rw [Block.arrive_group services address w activity none]
      exact Outcome.Ends.of_world (.still run) run

namespace Execution

theorem enter_onward (e : Execution) : e.EntersOnward services given := by
  induction e using enter_induction with
  | nil e now =>
    intro w
    rw [enter_end services w now]
    show Onward given w.journal (e.toSequence.finish services w).world.journal
    unfold Sequence.finish
    split
    · exact .refl
    · exact Outcome.bind_onward (Sequence.unregister_onward _ w) fun _ _ v => .aside trivial .refl
  | cons e b rest now goes_on starts =>
    intro w
    have registering : Onward given w.journal (b.register services w).2.journal :=
      b.register_onward w
    rcases registered : b.register services w with ⟨answer, v⟩
    rw [registered] at registering
    cases answer with
    | error error =>
      rw [enter_refused services now registered]
      exact registering
    | ok handle =>
      rw [enter_block services now registered]
      have arrives : (Block.arrive services e.address { b with handle } v).Ends
          (fun _ _ u => Arrives given e.address v.journal u.journal)
          fun _ _ u => Onward given v.journal u.journal :=
        Block.arrive_onward { b with handle } starts v
      refine registering.trans (arrives.bind_world (fun _ _ _ onward => onward) ?_)
      intro leaves part u arrived
      have entered := arrived.entered (s := e.toSequence) (b := part.1)
      cases leaves with
      | false => exact entered
      | true =>
        refine entered.trans (Outcome.bind_onward (part.1.leave_onward _) fun _ b u => ?_)
        exact (e.noteLeft_onward b u).trans (goes_on b handle _)

end Execution

/-- Whether a block that does this takes an event. -/
def Activity.takes : Activity → Event → Bool
  | .task, .done => true
  | .condition _ _, .yes | .condition _ _, .no => true
  | .asked _ _, .yes | .asked _ _, .no => true
  | .sleep _, .tick _ | .sleep _, .elapsed | .sleep _, .skip => true
  | _, _ => false

/-- A block passes over an event that it does not take. -/
theorem Block.react_passes {b : Block} {event : Event} (refused : b.activity.takes event = false)
    (w : World σ) : b.react services event w =
      ⟨.ok .stay, b, w.passOver (.notApplicable event b.type b.shownText)⟩ := by
  unfold react
  generalize b.activity = activity at refused ⊢
  cases activity <;> cases event <;> cases refused <;> rfl

/-- An event that finds its block is passed over, if at all, with a notice about that block. -/
theorem Block.react_onward {b : Block} {event : Event} (refused : b.activity.takes event = false →
      given (.notApplicable event b.type b.shownText)) (w : World σ) :
    Onward given w.journal (b.react services event w).world.journal := by
  have answers (loop : LoopKind) (body : List Template) (yes : Bool) :
      Onward given w.journal (b.answer loop body yes w).world.journal := by
    unfold answer
    split
    · exact w.noteBuilt_onward body
    · exact .refl
  cases takes : b.activity.takes event with
  | false =>
    rw [react_passes takes]
    exact .aside (refused takes) .refl
  | true =>
    unfold react
    split
    · exact .refl
    · exact w.noteBuilt_onward _
    · exact w.noteBuilt_onward _
    · exact answers _ _ true
    · exact answers _ _ false
    · exact .refl
    · exact .refl
    · have asked : Onward given w.journal (w.forceFinish services).2.journal :=
        World.ask_onward .forceFinish _ (fun _ => trivial) w
      split
      · next called => rwa [called] at asked
      · next called => rwa [called] at asked
    · unfold Activity.takes at takes
      split at takes <;> simp_all

namespace Execution

theorem leave_onward (e : Execution) (b : Block) (ahead : List Block) (w : World σ) :
    Onward given w.journal (e.leave services b ahead w).world.journal := by
  refine Outcome.bind_onward (cancelThreads_onward e.threads w) fun _ _ v => ?_
  refine Outcome.bind_onward (b.leave_onward v) fun _ b u => ?_
  exact (e.noteLeft_onward b u).trans (enter_onward _ _)

theorem afterThread_onward (e : Execution) (b : Block) (rest : List Block) (join : Join)
    (before after : List Thread) (t : Thread) (w : World σ) :
    Onward given w.journal (e.afterThread services b rest join before after t w).world.journal := by
  unfold afterThread
  simp only
  split
  · refine Outcome.bind_onward (join.complete_onward _ w) fun ended part v => ?_
    cases ended with
    | true => exact leave_onward _ _ _ v
    | false => exact .refl
  · exact .refl

/-- What an event does at the current block. -/
theorem dispatch_here_onward {e : Execution} {b : Block} {rest : List Block} {event : Event}
    (refused : b.activity.takes event = false →
      given (.notApplicable event b.type b.shownText))
    (running : e.isRunning = true) (now : e.ahead = b :: rest) (w : World σ) :
    Onward given w.journal (e.dispatch services event [] w).world.journal := by
  rw [dispatch_here running now]
  refine Outcome.bind_onward (b.react_onward refused w) fun reaction b v => ?_
  cases reaction with
  | stay => exact .refl
  | leave after => exact e.leave_onward b _ v

theorem dispatch_onward (e : Execution) (event : Event) (path : List Nat) (w : World σ) :
    Onward (fun _ => True) w.journal (e.dispatch services event path w).world.journal := by
  induction length : path.length using Nat.strongRecOn generalizing e path w with
  | ind n ih =>
  subst length
  refine dispatch_cases
    (motive := fun o => Onward (fun _ => True) w.journal o.world.journal) path ?passed ?here ?thread
  case passed => exact fun notice => .aside trivial .refl
  case here =>
    intro b rest running now
    have delivered : Onward (fun _ => True) w.journal
        (e.dispatch services event [] w).world.journal :=
      dispatch_here_onward (fun _ => trivial) running now w
    rwa [dispatch_here running now] at delivered
  case thread =>
    intro b rest join before t after further _ _ _ _ shorter
    exact Outcome.bind_onward (ih _ shorter _ _ _ rfl) fun _ _ v => afterThread_onward _ _ _ _ _ _ _ v

end Execution

namespace Run

variable (services)

theorem perform_onward (r : Run σ) (call : Call) :
    Onward (fun _ => True) r.world.journal (r.perform services call).world.journal := by
  cases call with
  | start =>
    simp only [perform, start]
    split
    · exact .refl
    · unfold ofOutcome begin
      simp only
      split
      · next reminder description _ _ =>
        have added : Onward (fun _ => True) r.world.journal
            (r.world.addReminder services description reminder).2.journal :=
          World.addReminder_onward description reminder r.world
        split
        · next called => rwa [called] at added
        · next called =>
          rw [called] at added
          exact added.trans (Execution.enter_onward _ _)
      · exact Execution.enter_onward _ _
  | dispatch path event => exact r.root.dispatch_onward event path r.world
  | push block => exact .refl
  | splice blocks => exact .refl
  | requestPause => exact World.requestPause_onward r.world
  | releasePause token => exact Adds.onward (World.releasePause_adds token r.world)

theorem after_onward (r : Run σ) (calls : List Call) :
    Onward (fun _ => True) r.world.journal (r.after services calls).world.journal := by
  induction calls generalizing r with
  | nil => exact .refl
  | cons call calls ih => exact (r.perform_onward services call).trans (ih _)

/-- The journal of a run that was put together and then called goes on from nothing. -/
theorem Assembled.onward_after {blocks : List HostBlock} {r : Run σ} (assembled : r.Assembled blocks)
    (calls : List Call) : Onward (fun _ => True) [] (r.after services calls).world.journal := by
  have made : Onward (fun _ => True) [] r.world.journal := by
    have making := assembled.journal
    generalize r.world.journal = journal at making
    induction journal with
    | nil => exact .refl
    | cons entry earlier ih =>
      have inert : entry.IsInert fun _ => True := by
        have made := making entry List.mem_cons_self
        cases entry with
        | built | opened => trivial
        | _ => exact False.elim made
      exact .aside inert (ih fun e mem => making e (List.mem_cons_of_mem _ mem))
  exact made.trans (r.after_onward services calls)

end Run

end Stepwise
