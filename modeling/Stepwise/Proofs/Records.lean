import Stepwise.Proofs.Calls
import Stepwise.Proofs.Monitor.Delivery

/-!
# What operations record

The entries that an operation adds to the journal tell what it can have done. A thread that is
cancelled records what it gives back, what it stops and which blocks it leaves, and nothing else.
What goes on in a place, the addresses below one address, is recorded with addresses of that place.
A countdown is set only for an address of the place as well, and it is ended early only where a wait
is skipped.
-/

namespace Stepwise

variable {σ : Type}

/-- The second journal is the first one with more entries, all of one kind. -/
def Adds (kind : Entry → Prop) (earlier later : List Entry) : Prop :=
  ∃ new, later = new ++ earlier ∧ ∀ entry ∈ new, kind entry

namespace Adds

variable {kind kind' : Entry → Prop} {first second third : List Entry} {entry : Entry}

theorem refl (kind : Entry → Prop) (journal : List Entry) : Adds kind journal journal :=
  ⟨[], rfl, List.forall_mem_nil _⟩

theorem trans (adds : Adds kind first second) (then_adds : Adds kind second third) :
    Adds kind first third := by
  obtain ⟨new, rfl, each⟩ := adds
  obtain ⟨new', rfl, each'⟩ := then_adds
  refine ⟨new' ++ new, (List.append_assoc _ _ _).symm, ?_⟩
  intro entry mem
  rcases List.mem_append.mp mem with late | early
  · exact each' entry late
  · exact each entry early

theorem mono (adds : Adds kind first second) (wider : ∀ entry, kind entry → kind' entry) :
    Adds kind' first second := by
  obtain ⟨new, same, each⟩ := adds
  exact ⟨new, same, fun entry mem => wider entry (each entry mem)⟩

theorem one (is_kind : kind entry) (journal : List Entry) : Adds kind journal (entry :: journal) :=
  ⟨[entry], rfl, List.forall_mem_singleton.mpr is_kind⟩

/-- What holds of all entries before and is of the kind of the new ones holds of all after. -/
theorem all (adds : Adds kind first second) (before : ∀ entry ∈ first, kind entry) :
    ∀ entry ∈ second, kind entry := by
  obtain ⟨new, rfl, each⟩ := adds
  exact List.forall_mem_append.mpr ⟨each, before⟩

end Adds

theorem Outcome.bind_adds {τ υ α β : Type} {kind : Entry → Prop} {earlier : List Entry}
    {o : Outcome σ τ α} {wrap : τ → υ} {next : α → τ → World σ → Outcome σ υ β}
    (first : Adds kind earlier o.world.journal)
    (goes_on : ∀ a, Adds kind o.world.journal (next a o.part o.world).world.journal) :
    Adds kind earlier (o.bind wrap next).world.journal :=
  bind_left (P := fun _ v => Adds kind earlier v.journal) first fun a _ => first.trans (goes_on a)

namespace Entry

/-- What is recorded where sequences of the place leave their blocks or are given up. -/
def IsParting (place : List Nat → Prop) : Entry → Prop
  | .asked (.removeReminder _) _ | .asked (.setPaused false) _ | .asked (.cancelCountdown _) _
  | .asked (.hook _) _ => True
  | .left address _ _ => place address
  | _ => False

/-- What is recorded where sequences of the place go on. A countdown may be ended early only if
`skips` holds. -/
def IsProgress (place : List Nat → Prop) (skips : Prop) : Entry → Prop
  | .asked .forceFinish _ => skips
  | .asked (.startCountdown _ _ route) _ => place route
  | .entered address _ _ | .left address _ _ | .finished address => place address
  | _ => True

variable {place : List Nat → Prop} {skips : Prop} {entry : Entry}

theorem IsParting.progress (parting : entry.IsParting place) (skips : Prop) :
    entry.IsProgress place skips := by
  unfold IsParting at parting
  split at parting
  · trivial
  · trivial
  · trivial
  · trivial
  · exact parting
  · exact parting.elim

theorem IsProgress.mono {place' : List Nat → Prop} {skips' : Prop}
    (progress : entry.IsProgress place skips) (wider : ∀ address, place address → place' address)
    (skips_too : skips → skips') : entry.IsProgress place' skips' := by
  unfold IsProgress at progress
  split at progress
  · exact skips_too progress
  · exact wider _ progress
  · exact wider _ progress
  · exact wider _ progress
  · exact wider _ progress
  · next not_forced not_started not_entered not_left not_finished =>
    unfold IsProgress
    split
    · exact (not_forced _ rfl).elim
    · exact (not_started _ _ _ _ rfl).elim
    · exact (not_entered _ _ _ rfl).elim
    · exact (not_left _ _ _ rfl).elim
    · exact (not_finished _ rfl).elim
    · trivial

end Entry

variable {services : Services σ} {place : List Nat → Prop} {skips : Prop} {w : World σ}

theorem Adds.progress {first second : List Entry}
    (adds : Adds (Entry.IsParting place) first second) :
    Adds (Entry.IsProgress place skips) first second :=
  adds.mono fun _ parting => parting.progress skips

namespace World

variable {kind : Entry → Prop}

theorem ask_adds {request : Request} {call : σ → Except ServiceError Unit × σ}
    (is_kind : ∀ answer, kind (.asked request answer)) (w : World σ) :
    Adds kind w.journal (w.ask request call).2.journal :=
  .one (is_kind _) _

theorem addReminder_adds (label : String) (r : Reminder) (w : World σ) :
    Adds (Entry.IsProgress place skips) w.journal (w.addReminder services label r).2.journal :=
  .one trivial _

theorem requestPause_adds (w : World σ) :
    Adds (Entry.IsProgress place skips) w.journal (w.requestPause services).2.journal := by
  have noted : Adds (Entry.IsProgress place skips) w.journal
      (w.note (.pauseRequested w.pause.next)).journal := .one trivial _
  unfold requestPause PauseRequests.request
  by_cases paused : w.pause.isPaused
  · simp only [paused, if_true]
    exact noted
  · have asked (v : World σ) : Adds (Entry.IsProgress place skips) v.journal
        (v.setPaused services true).2.journal := .one trivial _
    have further := noted.trans (asked _)
    simp only [paused]
    generalize setPaused services true (w.note _) = called at further ⊢
    obtain ⟨answer, v⟩ := called
    cases answer with
    | ok _ => exact further
    | error e => exact further

theorem releasePause_adds (token : Nat) (w : World σ) :
    Adds (Entry.IsParting place) w.journal (w.releasePause services token).2.journal := by
  unfold releasePause PauseRequests.release setPaused
  by_cases outstanding : token ∈ w.pause.outstanding
  · simp only [outstanding, if_true]
    split
    · exact .refl _ _
    · exact .one trivial _
  · simp only [outstanding, if_false]
    exact .refl _ _

theorem noteBuilt_adds (templates : List Template) (w : World σ) :
    Adds (Entry.IsProgress place skips) w.journal (w.noteBuilt templates).journal := by
  refine ⟨(templates.map Entry.built).reverse, rfl, ?_⟩
  intro entry mem
  obtain ⟨t, -, rfl⟩ := List.mem_map.mp (List.mem_reverse.mp mem)
  trivial

theorem noteOpened_adds (branches : List (List Template)) (w : World σ) :
    Adds (Entry.IsProgress place skips) w.journal (w.noteOpened branches).journal := by
  induction branches generalizing w with
  | nil => exact .refl _ _
  | cons templates rest ih =>
    have opened : Adds (Entry.IsProgress place skips) w.journal
        (w.note (.opened none none)).journal := .one trivial _
    exact (opened.trans (noteBuilt_adds templates _)).trans (ih _)

end World

theorem LeaveHook.runAll_adds (hooks : List LeaveHook) (w : World σ) :
    Adds (Entry.IsParting place) w.journal (runAll services hooks w).world.journal := by
  induction hooks generalizing w with
  | nil => exact .refl _ _
  | cons hook rest ih =>
    have ran : Adds (Entry.IsParting place) w.journal (hook.run services w).2.journal := by
      cases hook with
      | removeReminder id => exact .one trivial _
      | custom name failure => exact .one trivial _
    unfold runAll
    split
    · next called =>
      rw [called] at ran
      exact ran.trans (ih _)
    · next called =>
      rw [called] at ran
      exact ran

theorem Sleep.giveBackToken_adds (s : Sleep) (w : World σ) :
    Adds (Entry.IsParting place) w.journal (s.giveBackToken services w).world.journal := by
  unfold giveBackToken
  split
  · exact .refl _ _
  · exact World.releasePause_adds _ w

theorem Sleep.release_adds (s : Sleep) (w : World σ) :
    Adds (Entry.IsParting place) w.journal (s.release services w).world.journal := by
  have cancelled : Adds (Entry.IsParting place) w.journal
      (w.cancelCountdown services s.route).2.journal := .one trivial _
  unfold release
  split
  · split
    · next called =>
      rw [called] at cancelled
      exact cancelled.trans (giveBackToken_adds _ _)
    · next called =>
      rw [called] at cancelled
      exact cancelled
  · exact s.giveBackToken_adds w

namespace Block

theorem wrapUp_adds (b : Block) (w : World σ) :
    Adds (Entry.IsParting place) w.journal (b.wrapUp services w).world.journal := by
  unfold wrapUp
  split
  · exact .refl _ _
  · exact Sleep.release_adds _ w
  · exact .refl _ _

theorem discard_adds (b : Block) (w : World σ) :
    Adds (Entry.IsParting place) w.journal (b.discard services w).world.journal := by
  have unregistered : Adds (Entry.IsParting place) w.journal
      (b.unregister services w).world.journal := by
    unfold unregister
    split
    · exact .refl _ _
    · exact .one trivial _
  exact Outcome.bind_adds unregistered fun _ => LeaveHook.runAll_adds _ _

theorem leave_adds (b : Block) (w : World σ) :
    Adds (Entry.IsParting place) w.journal (b.leave services w).world.journal :=
  Outcome.bind_adds (b.wrapUp_adds w) fun _ => discard_adds _ _

theorem register_adds (b : Block) (w : World σ) :
    Adds (Entry.IsProgress place skips) w.journal (b.register services w).2.journal := by
  unfold register
  split
  · next reminder _ _ =>
    have added : Adds (Entry.IsProgress place skips) w.journal
        (w.addReminder services b.shownText reminder).2.journal := World.addReminder_adds _ _ w
    split
    · next called =>
      rw [called] at added
      exact added
    · next called =>
      rw [called] at added
      exact added
  · exact .refl _ _

end Block

theorem discardAll_adds (blocks : List Block) (w : World σ) :
    Adds (Entry.IsParting place) w.journal (discardAll services blocks w).world.journal := by
  induction blocks generalizing w with
  | nil => exact .refl _ _
  | cons b rest ih => exact Outcome.bind_adds (b.discard_adds w) fun _ => ih _

namespace Sequence

theorem unregister_adds (s : Sequence) (w : World σ) :
    Adds (Entry.IsParting place) w.journal (s.unregister services w).world.journal := by
  unfold unregister
  split
  · exact .refl _ _
  · exact .one trivial _

theorem giveUp_adds (s : Sequence) (w : World σ) :
    Adds (Entry.IsParting place) w.journal (s.giveUp services w).world.journal :=
  Outcome.bind_adds (discardAll_adds s.ahead w) fun _ => unregister_adds _ _

theorem halt_adds {s : Sequence} (inside : place s.address) (w : World σ) :
    Adds (Entry.IsParting place) w.journal (s.halt services w).world.journal := by
  unfold halt
  split
  · exact s.giveUp_adds w
  · refine Outcome.bind_adds (Block.leave_adds _ w) fun _ => ?_
    have noted (b : Block) (v : World σ) :
        Adds (Entry.IsParting place) v.journal (s.noteLeft b v).journal := .one inside _
    exact (noted _ _).trans (giveUp_adds _ _)

end Sequence

mutual

theorem Execution.cancel_adds : ∀ {e : Execution}, e.Within place → ∀ w : World σ,
    Adds (Entry.IsParting place) w.journal (e.cancel services w).world.journal
  | ⟨line, threads⟩, inside, w => by
    rw [Execution.cancel]
    split
    · refine Outcome.bind_adds (cancelThreads_adds inside.2 w) fun _ => ?_
      have here : place { line with cancelled := true }.address := inside.1
      exact Sequence.halt_adds here _
    · exact .refl _ _

/-- Threads that are cancelled record only what they part with. -/
theorem cancelThreads_adds : ∀ {threads : List Thread}, allWithin place threads →
    ∀ w : World σ, Adds (Entry.IsParting place) w.journal
      (cancelThreads services threads w).world.journal
  | [], _, _ => .refl _ _
  | ⟨_, _⟩ :: _, inside, w =>
    Outcome.bind_adds (Execution.cancel_adds inside.1 w) fun _ => cancelThreads_adds inside.2 _

end

theorem Join.complete_adds (j : Join) {threads : List Thread} (inside : allWithin place threads)
    (w : World σ) :
    Adds (Entry.IsParting place) w.journal (j.complete services threads w).world.journal := by
  unfold complete
  simp only
  split
  · refine Outcome.bind_adds (cancelThreads_adds inside w) fun _ => ?_
    split
    · exact .refl _ _
    · exact .refl _ _
  · exact .refl _ _

/-- A monitor of addresses alone. -/
def Monitor.ofPlace (services : Services σ) (place : List Nat → Prop)
    (branch : ∀ {address}, place address → ∀ n, place (address ++ [n])) : Monitor services where
  Fine _ _ := True
  Failed _ _ _ := True
  Follows := place
  branch := branch
  fewer _ _ := trivial
  failed_fewer _ _ := trivial
  pause _ _ := trivial
  failed_pause _ _ := trivial
  note _ _ := trivial
  added _ _ _ := .of_world trivial
  asked _ _ := .of_world trivial

section Places

variable (branch : ∀ {address}, place address → ∀ n, place (address ++ [n]))
include branch

theorem Execution.enter_inside {e : Execution} (inside : e.Within place) (w : World σ) :
    (e.enter services w).part.Within place := by
  have kept := enter_monitored (m := .ofPlace services place branch) e w [] inside trivial
  exact (kept.mono (fun _ _ _ => And.right) fun _ _ _ => And.right).left

theorem Join.complete_inside (j : Join) {threads : List Thread} (inside : allWithin place threads)
    (w : World σ) : allWithin place (j.complete services threads w).part.2 := by
  have kept : (Monitor.ofPlace services place branch).KeepsThreads []
      (j.complete services threads w) := j.complete_monitored inside trivial
  exact (kept.mono (fun _ _ _ => And.right) fun _ _ _ => And.right).left

end Places

theorem Sleep.start_adds (s : Sleep) {address : List Nat} (inside : place address) (w : World σ) :
    Adds (Entry.IsProgress place skips) w.journal (s.start services address w).world.journal := by
  have countdown (v : World σ) : Adds (Entry.IsProgress place skips) v.journal
      (v.startCountdown services s.value s.unit address).2.journal := .one inside _
  unfold start
  simp only
  split
  · have requested : Adds (Entry.IsProgress place skips) w.journal
        (w.requestPause services).2.journal := w.requestPause_adds
    split
    · next called =>
      rw [called] at requested
      exact requested
    · next called =>
      rw [called] at requested
      exact requested.trans (countdown _)
  · exact countdown w

section Entering

variable (branch : ∀ {address}, place address → ∀ n, place (address ++ [n]))

/-- Entering the execution adds only what its place may see. -/
def Execution.EntersIn (services : Services σ) (place : List Nat → Prop) (e : Execution) : Prop :=
  e.Within place → ∀ w : World σ,
    Adds (Entry.IsProgress place False) w.journal (e.enter services w).world.journal

include branch

theorem startThreads_adds {branches : List (List Template)}
    (enters : ∀ templates ∈ branches, ∀ address,
      (startedThread address templates).EntersIn services place)
    {address : List Nat} (here : place address) (first : Nat) {started : List Thread}
    (inside : allWithin place started) (join : Join) (w : World σ) :
    Adds (Entry.IsProgress place False) w.journal
      (startThreads services (threadsFrom address first branches) started join w).world.journal := by
  induction branches generalizing first started join w with
  | nil =>
    rw [threadsFrom, startThreads]
    exact .refl _ _
  | cons templates rest ih =>
    have rest_enters := fun ts mem => enters ts (List.mem_cons_of_mem templates mem)
    have pending : allWithin place (threadsFrom address (first + 1) rest) :=
      allWithin_threadsFrom (branch here) (first + 1) rest
    have fresh : (startedThread (address ++ [first]) templates).Within place :=
      ⟨branch here first, trivial⟩
    have entered := enters templates List.mem_cons_self (address ++ [first]) fresh w
    have thread : ((startedThread (address ++ [first]) templates).enter services w).part.Within
        place := Execution.enter_inside branch fresh w
    rw [startThreads_next]
    refine Outcome.bind_adds entered fun _ => ?_
    split
    · have both := (allWithin_append _ _).mpr ⟨inside, pending⟩
      refine Outcome.bind_adds (join.complete_adds both _).progress fun ended => ?_
      cases ended with
      | true => exact .refl _ _
      | false => exact ih rest_enters (first + 1) inside _ _
    · refine ih rest_enters (first + 1) ?_ join _
      exact (allWithin_append _ _).mpr ⟨inside, thread, trivial⟩

theorem Block.arrive_adds {b : Block} {address : List Nat} (here : place address)
    (enters : ∀ join, b.activity = .parallel join → ∀ templates ∈ join.branches, ∀ address,
      (startedThread address templates).EntersIn services place) (w : World σ) :
    Adds (Entry.IsProgress place False) w.journal
      (Block.arrive services address b w).world.journal := by
  cases activity : b.activity with
  | task | condition | asked =>
    rw [Block.arrive, activity]
    exact .refl _ _
  | counted remaining entered body =>
    rw [Block.arrive_counted services address w activity]
    split
    · exact w.noteBuilt_adds body
    · exact .refl _ _
  | sleep s =>
    by_cases positive : 0 < s.value
    · rw [Block.arrive_asleep services address w activity positive]
      exact Outcome.bind_adds (s.start_adds here w) fun _ => .refl _ _
    · rw [Block.arrive_elapsed services address w activity positive]
      exact .refl _ _
  | parallel join =>
    by_cases none : join.branches = []
    · rw [Block.arrive_branchless services address w activity none]
      exact .refl _ _
    · have none_started : allWithin place [] := trivial
      rw [Block.arrive_group services address w activity none]
      exact (w.noteOpened_adds join.branches).trans
        (startThreads_adds branch (enters join activity) here 0 none_started join.opened _)

namespace Execution

theorem enter_adds (e : Execution) : e.EntersIn services place := by
  induction e using enter_induction with
  | nil e now =>
    intro inside w
    have here := ((within_iff e).mp inside).1
    rw [enter_end services w now]
    show Adds _ w.journal (e.toSequence.finish services w).world.journal
    unfold Sequence.finish
    split
    · exact .refl _ _
    · next unfinished =>
      have removed : Adds (Entry.IsParting place) w.journal
          ({ e.toSequence with finished := true }.unregister services w).world.journal :=
        Sequence.unregister_adds _ w
      have same : ({ e.toSequence with finished := true }.unregister services w).part.address =
          e.address := by
        unfold Sequence.unregister
        split <;> rfl
      refine Outcome.bind_adds removed.progress fun _ => .one ?_ _
      show place _
      rw [same]
      exact here
  | cons e b rest now goes_on starts =>
    intro inside w
    have here := ((within_iff e).mp inside).1
    have registering : Adds (Entry.IsProgress place False) w.journal
        (b.register services w).2.journal := b.register_adds w
    rcases registered : b.register services w with ⟨answer, v⟩
    rw [registered] at registering
    cases answer with
    | error error =>
      rw [enter_refused services now registered]
      exact registering
    | ok handle =>
      rw [enter_block services now registered]
      have arrives : Adds (Entry.IsProgress place False) v.journal
          (Block.arrive services e.address { b with handle } v).world.journal :=
        Block.arrive_adds branch (b := { b with handle }) here starts v
      refine registering.trans (Outcome.bind_adds arrives fun leaves => ?_)
      have noted (c : Block) (u : World σ) :
          Adds (Entry.IsProgress place False) u.journal (e.noteEntered c u).journal := .one here _
      cases leaves with
      | false => exact noted _ _
      | true =>
        refine (noted _ _).trans (Outcome.bind_adds (Block.leave_adds _ _).progress fun _ => ?_)
        have left (c : Block) (u : World σ) :
            Adds (Entry.IsProgress place False) u.journal (e.noteLeft c u).journal := .one here _
        exact (left _ _).trans (goes_on _ handle ⟨here, trivial⟩ _)

end Execution

end Entering

/-- Only skipping a wait has the host end a countdown early. -/
theorem Block.react_adds (b : Block) (event : Event) (w : World σ) :
    Adds (Entry.IsProgress place (event = .skip)) w.journal
      (b.react services event w).world.journal := by
  have answers (loop : LoopKind) (body : List Template) (yes : Bool) :
      Adds (Entry.IsProgress place (event = .skip)) w.journal
        (b.answer loop body yes w).world.journal := by
    unfold answer
    split
    · exact w.noteBuilt_adds body
    · exact .refl _ _
  unfold react
  split
  · exact .refl _ _
  · exact w.noteBuilt_adds _
  · exact w.noteBuilt_adds _
  · exact answers _ _ true
  · exact answers _ _ false
  · exact .refl _ _
  · exact .refl _ _
  · have forced : Adds (Entry.IsProgress place (Event.skip = .skip)) w.journal
        (w.forceFinish services).2.journal := World.ask_adds (fun _ => rfl) w
    split
    · next called =>
      rw [called] at forced
      exact forced
    · next called =>
      rw [called] at forced
      exact forced
  · exact .one trivial _

namespace Execution

variable (branch : ∀ {address}, place address → ∀ n, place (address ++ [n]))
include branch

theorem leave_adds {e : Execution} (inside : e.Within place) (b : Block) (ahead : List Block)
    (w : World σ) : Adds (Entry.IsProgress place False) w.journal
      (e.leave services b ahead w).world.journal := by
  obtain ⟨here, threads⟩ := (within_iff e).mp inside
  refine Outcome.bind_adds (cancelThreads_adds threads w).progress fun _ => ?_
  refine Outcome.bind_adds (b.leave_adds _).progress fun _ => ?_
  have left (c : Block) (u : World σ) :
      Adds (Entry.IsProgress place False) u.journal (e.noteLeft c u).journal := .one here _
  exact (left _ _).trans (enter_adds branch ⟨e.advance _ ahead, []⟩ ⟨here, trivial⟩ _)

theorem afterThread_adds {e : Execution} (here : place e.address) (b : Block) (rest : List Block)
    (join : Join) {before after : List Thread} (inside : allWithin place (before ++ after))
    (t : Thread) (w : World σ) :
    Adds (Entry.IsProgress place False) w.journal
      (e.afterThread services b rest join before after t w).world.journal := by
  unfold afterThread
  simp only
  split
  · refine Outcome.bind_adds (join.complete_adds inside w).progress fun ended => ?_
    cases ended with
    | true =>
      have kept : allWithin place (join.complete services (before ++ after) w).part.2 :=
        join.complete_inside branch inside w
      have regrouped (c : Block) : Within place ⟨{ e.toSequence with ahead := c :: rest }, _⟩ :=
        ⟨here, kept⟩
      exact leave_adds branch (regrouped _) _ _ _
    | false => exact .refl _ _
  · exact .refl _ _

/-- An event for a thread of a place adds only what the place may see. -/
theorem dispatch_adds {e : Execution} (inside : e.Within place) (event : Event) (path : List Nat)
    (w : World σ) : Adds (Entry.IsProgress place (event = .skip)) w.journal
      (e.dispatch services event path w).world.journal := by
  induction length : path.length using Nat.strongRecOn generalizing e path w with
  | ind n ih =>
  subst length
  have skipless {first second : List Entry} (adds : Adds (Entry.IsProgress place False) first second) :
      Adds (Entry.IsProgress place (event = .skip)) first second :=
    adds.mono fun _ progress => progress.mono (fun _ => id) False.elim
  refine dispatch_cases (motive := fun o =>
    Adds (Entry.IsProgress place (event = .skip)) w.journal o.world.journal) path ?passed ?here ?thread
  case passed => exact fun notice => .one trivial _
  case here =>
    intro b rest running now
    refine Outcome.bind_adds (b.react_adds event w) fun reaction => ?_
    cases reaction with
    | stay => exact .refl _ _
    | leave after => exact skipless (leave_adds branch inside _ _ _)
  case thread =>
    intro b rest join before t after further running now group threads shorter
    obtain ⟨here, threads_inside⟩ := (within_iff e).mp inside
    rw [threads, allWithin_append, allWithin_cons] at threads_inside
    obtain ⟨before_inside, t_inside, after_inside⟩ := threads_inside
    have others := (allWithin_append _ _).mpr ⟨before_inside, after_inside⟩
    refine Outcome.bind_adds (ih _ shorter t_inside further w rfl) fun _ => ?_
    exact skipless (afterThread_adds branch here b rest join others _ _)

end Execution

namespace Run

theorem start_adds (r : Run σ) : Adds (Entry.IsProgress (fun _ => True) False) r.world.journal
    (r.start services).2.world.journal := by
  have enters (e : Execution) (w : World σ) :
      Adds (Entry.IsProgress (fun _ => True) False) w.journal (e.enter services w).world.journal :=
    Execution.enter_adds (fun _ _ => trivial) e (e.within_all fun _ => trivial) w
  unfold start
  split
  · exact .refl _ _
  · unfold begin ofOutcome
    simp only
    split
    · next reminder description _ _ =>
      have added : Adds (Entry.IsProgress (fun _ => True) False) r.world.journal
          (r.world.addReminder services description reminder).2.journal :=
        r.world.addReminder_adds description reminder
      split
      · next called =>
        rw [called] at added
        exact added
      · next called =>
        rw [called] at added
        exact added.trans (enters _ _)
    · exact enters _ _

theorem dispatch_adds (r : Run σ) (path : List Nat) (event : Event) :
    Adds (Entry.IsProgress (fun _ => True) (event = .skip)) r.world.journal
      (r.dispatch services path event).2.world.journal :=
  Execution.dispatch_adds (fun _ _ => trivial) (r.root.within_all fun _ => trivial) event path
    r.world

end Run

end Stepwise
