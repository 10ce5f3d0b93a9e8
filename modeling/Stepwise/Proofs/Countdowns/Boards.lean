import Stepwise.Proofs.Records

/-!
# What the journal tells of the board

Every change of a session's board is recorded as a request and its answer, so that the board after
an operation is that of before with the new entries replayed on it. A countdown whose route an
operation cannot set is therefore one that ran before, and no countdown was set since.
-/

namespace Stepwise

namespace Entry

/-- What the request that an entry records did to the board. One that was refused did nothing. -/
def onBoard : Entry → CountdownBoard → CountdownBoard
  | .asked (.startCountdown value unit route) (.ok _), b =>
    { b with running := some ⟨unit.toSeconds value, route⟩, started := b.started + 1 }
  | .asked .forceFinish (.ok _), b => { b with running := none, forced := b.forced + 1 }
  | .asked (.cancelCountdown route) (.ok _), b =>
    { b with running := b.running.filter (·.route ≠ route) }
  | _, b => b

/-- The route for which a countdown was set. -/
def sets? : Entry → Option (List Nat)
  | .asked (.startCountdown _ _ route) (.ok _) => some route
  | _ => none

/-- The address of the sequence that an entry is about. -/
def address? : Entry → Option (List Nat)
  | .entered address _ _ | .left address _ _ | .finished address => some address
  | _ => none

variable {place : List Nat → Prop} {skips : Prop} {entry : Entry} {path : List Nat}

theorem IsProgress.sets (progress : entry.IsProgress place skips)
    (sets : entry.sets? = some path) : place path := by
  unfold sets? at sets
  split at sets
  · cases sets
    exact progress
  · cases sets

theorem IsProgress.address (progress : entry.IsProgress place skips)
    (about : entry.address? = some path) : place path := by
  unfold address? at about
  split at about
  · cases about
    exact progress
  · cases about
    exact progress
  · cases about
    exact progress
  · cases about

theorem IsParting.sets (parting : entry.IsParting place) : entry.sets? = none := by
  unfold sets?
  split
  · exact parting.elim
  · rfl

/-- The countdown that runs after an entry ran before it, unless the entry set one for its route. -/
theorem running_onBoard {c : Countdown} {b : CountdownBoard} (other : entry.sets? ≠ some c.route)
    (running : (entry.onBoard b).running = some c) :
    b.running = some c ∧ (entry.onBoard b).started = b.started ∧ entry.sets? = none := by
  unfold onBoard at running ⊢
  split at running
  · cases running
    exact absurd rfl other
  · cases running
  · obtain ⟨before, -⟩ := Option.filter_eq_some_iff.mp running
    exact ⟨before, rfl, rfl⟩
  · next not_started _ _ =>
    refine ⟨running, rfl, ?_⟩
    unfold sets?
    split
    · exact absurd rfl (not_started _ _ _ _)
    · rfl

end Entry

/-- The same for entries one after the other. -/
theorem running_replayed {new : List Entry} {c : Countdown} {b : CountdownBoard}
    (others : ∀ entry ∈ new, entry.sets? ≠ some c.route)
    (running : (new.foldr Entry.onBoard b).running = some c) :
    b.running = some c ∧ (new.foldr Entry.onBoard b).started = b.started ∧
      ∀ entry ∈ new, entry.sets? = none := by
  induction new with
  | nil => exact ⟨running, rfl, List.forall_mem_nil _⟩
  | cons entry new ih =>
    obtain ⟨first, rest⟩ := List.forall_mem_cons.mp others
    obtain ⟨before, started, unset⟩ := Entry.running_onBoard first running
    obtain ⟨running, started', unset'⟩ := ih rest before
    exact ⟨running, started.trans started', List.forall_mem_cons.mpr ⟨unset, unset'⟩⟩

/-- What an entry adds to the count of countdowns that were set. -/
theorem Entry.started_onBoard (entry : Entry) (b : CountdownBoard) :
    (entry.onBoard b).started = b.started + if entry.sets?.isSome then 1 else 0 := by
  unfold Entry.onBoard Entry.sets?
  split
  · rfl
  · rfl
  · rfl
  · next not_started _ _ =>
    split
    · exact absurd rfl (not_started _ _ _ _)
    · rfl

theorem started_replayed (new : List Entry) (b : CountdownBoard) :
    (new.foldr Entry.onBoard b).started = b.started + new.countP (·.sets?.isSome) := by
  induction new with
  | nil => rfl
  | cons entry new ih =>
    rw [List.foldr_cons, Entry.started_onBoard, ih, List.countP_cons, Nat.add_assoc]

/-- While no countdown is set, a board on which none runs stays so. -/
theorem empty_replayed {new : List Entry} {b : CountdownBoard} (empty : b.running = none)
    (unset : (new.foldr Entry.onBoard b).started = b.started) :
    (new.foldr Entry.onBoard b).running = none := by
  rw [started_replayed, Nat.add_eq_left, List.countP_eq_zero] at unset
  cases running : (new.foldr Entry.onBoard b).running with
  | none => rfl
  | some c =>
    have others : ∀ entry ∈ new, entry.sets? ≠ some c.route := by
      intro entry mem sets
      exact unset entry mem (by rw [sets, Option.isSome_some])
    exact absurd (empty.symm.trans (running_replayed others running).1) nofun

/-- The new entries of the second world lead from the board of the first one to its own. -/
def World.Replays (w v : World InMemory) : Prop :=
  ∃ new, v.journal = new ++ w.journal ∧ v.host.countdown = new.foldr Entry.onBoard w.host.countdown

namespace World.Replays

variable {w v : World InMemory} {duties : List Duty}

theorem refl (w : World InMemory) : w.Replays w := ⟨[], rfl, rfl⟩

theorem step (replays : w.Replays v) {entry : Entry} {host : InMemory}
    (board : host.countdown = entry.onBoard v.host.countdown) :
    w.Replays { v with host, journal := entry :: v.journal } := by
  obtain ⟨new, journal, replayed⟩ := replays
  refine ⟨entry :: new, congrArg (entry :: ·) journal, ?_⟩
  rw [List.foldr_cons, ← replayed]
  exact board

theorem note (replays : w.Replays v) {entry : Entry} (is_note : entry.IsNote fun _ => True) :
    w.Replays (v.note entry) := by
  apply replays.step
  cases entry with
  | added | asked => exact is_note.elim
  | _ => rfl

theorem ask (replays : w.Replays v) {request : Request}
    {call : InMemory → Except ServiceError Unit × InMemory}
    (serves : InMemory.services.Serves request call) : w.Replays (v.ask request call).2 := by
  apply replays.step
  cases serves with
  | startCountdown value unit route =>
    simp only [InMemory.services, InMemory.onCountdown, CountdownBoard.start, CountdownBoard.answer]
    split
    · rfl
    · rfl
  | forceFinish =>
    simp only [InMemory.services, InMemory.onCountdown, CountdownBoard.forceFinish,
      CountdownBoard.answer]
    split
    · rfl
    · rfl
  | cancelCountdown route =>
    simp only [InMemory.services, InMemory.onCountdown, CountdownBoard.cancel, CountdownBoard.answer]
    split
    · rfl
    · rfl
  | _ => rfl

end World.Replays

/-- A monitor that replays what is recorded from a world on. -/
def Monitor.ofBoard (w : World InMemory) : Monitor InMemory.services where
  Fine v _ := w.Replays v
  Failed _ v _ := w.Replays v
  Follows _ := True
  branch _ _ := trivial
  fewer replays _ := replays
  failed_fewer replays _ := replays
  pause _ replays := replays
  failed_pause _ replays := replays
  note is_note replays := replays.note is_note
  added _ _ replays := .of_world (replays.step rfl)
  asked serves replays := .of_world (replays.ask serves)

/-- The second world is the first one after entries that set countdowns only for routes in `set` and
are only about sequences in `about`. -/
def World.Changes (set about : List Nat → Prop) (w v : World InMemory) : Prop :=
  ∃ new, v.journal = new ++ w.journal ∧
    v.host.countdown = new.foldr Entry.onBoard w.host.countdown ∧
    ∀ entry ∈ new, (∀ path, entry.sets? = some path → set path) ∧
      ∀ path, entry.address? = some path → about path

namespace World.Changes

variable {set about : List Nat → Prop} {w v : World InMemory}

theorem of_progress {place : List Nat → Prop} {skips : Prop}
    (adds : Adds (Entry.IsProgress place skips) w.journal v.journal) (replays : w.Replays v) :
    w.Changes place place v := by
  obtain ⟨new, journal, each⟩ := adds
  obtain ⟨new', journal', board⟩ := replays
  obtain rfl : new' = new := List.append_cancel_right (journal'.symm.trans journal)
  exact ⟨new', journal, board, fun entry mem => ⟨fun _ => (each entry mem).sets,
    fun _ => (each entry mem).address⟩⟩

theorem of_parting {place : List Nat → Prop}
    (adds : Adds (Entry.IsParting place) w.journal v.journal) (replays : w.Replays v) :
    w.Changes (fun _ => False) place v := by
  obtain ⟨new, journal, each⟩ := adds
  obtain ⟨new', journal', board⟩ := replays
  obtain rfl : new' = new := List.append_cancel_right (journal'.symm.trans journal)
  refine ⟨new', journal, board, ?_⟩
  intro entry mem
  have parting : entry.IsParting place := each entry mem
  constructor
  · intro path same
    rw [parting.sets] at same
    cases same
  · exact fun _ => (parting.progress True).address

theorem note {entry : Entry} (is_note : entry.IsNote about) (w : World InMemory) :
    w.Changes set about (w.note entry) := by
  refine ⟨[entry], rfl, ?_, List.forall_mem_singleton.mpr ⟨?_, ?_⟩⟩
  · cases entry with
    | added | asked => exact is_note.elim
    | _ => rfl
  · cases entry with
    | added | asked => exact is_note.elim
    | _ => rintro path ⟨⟩
  · cases entry with
    | added | asked => exact is_note.elim
    | entered | left | finished =>
      rintro path ⟨⟩
      exact is_note
    | _ => rintro path ⟨⟩

end World.Changes

/-- The setting of a countdown by the block with this index of the sequence at the route. -/
structure Setting where
  value : Int64
  unit : TimeUnit
  route : List Nat
  index : Nat

namespace Setting

/-- The countdown that runs from then on. -/
def countdown (m : Setting) : Countdown := ⟨m.unit.toSeconds m.value, m.route⟩

/-- No countdown was set after this one, the block was entered right after it, and nothing has
happened to the sequence of the block since. -/
def Latest (m : Setting) (journal : List Entry) : Prop :=
  ∃ later text earlier, journal = later ++ .entered m.route m.index text ::
      .asked (.startCountdown m.value m.unit m.route) (.ok ()) :: earlier ∧
    ∀ entry ∈ later, entry.sets? = none ∧ entry.address? ≠ some m.route

end Setting

namespace World

variable {set about : List Nat → Prop} {w v : World InMemory} {c : Countdown}

/-- A countdown that no change could set ran before. -/
theorem Changes.kept (changes : w.Changes set about v) (unset : ¬ set c.route)
    (running : v.host.countdown.running = some c) :
    w.host.countdown.running = some c ∧
      v.host.countdown.started = w.host.countdown.started ∧
      ∀ m : Setting, m.Latest w.journal → ¬ about m.route → m.Latest v.journal := by
  obtain ⟨new, journal, board, each⟩ := changes
  have others : ∀ entry ∈ new, entry.sets? ≠ some c.route :=
    fun entry mem sets => unset ((each entry mem).1 _ sets)
  rw [board] at running ⊢
  obtain ⟨before, started, none_set⟩ := running_replayed others running
  refine ⟨before, started, ?_⟩
  rintro m ⟨later, text, earlier, same, since⟩ apart
  refine ⟨new ++ later, text, earlier, ?_, List.forall_mem_append.mpr ⟨?_, since⟩⟩
  · rw [journal, same, List.append_assoc]
  · intro entry mem
    exact ⟨none_set entry mem, fun told => apart ((each entry mem).2 _ told)⟩

/-- A countdown that runs for the place is excused, or it is the one of a block that attends to
it. -/
def Minds (w : World InMemory) (excused : Nat → Countdown → Prop) (place : List Nat → Prop)
    (attends : Setting → Prop) : Prop :=
  ∀ c, w.host.countdown.running = some c → place c.route →
    excused w.host.countdown.started c ∨ ∃ m : Setting, m.countdown = c ∧ m.Latest w.journal ∧ attends m

/-- No countdown runs for the route. -/
def Stopped (w : World InMemory) (path : List Nat) : Prop :=
  ∀ c, w.host.countdown.running = some c → c.route ≠ path

variable {excused : Nat → Countdown → Prop} {place : List Nat → Prop}
  {attends attends' : Setting → Prop}

theorem Stopped.later {path : List Nat} (stopped : w.Stopped path)
    (changes : w.Changes (fun _ => False) about v) : v.Stopped path :=
  fun c running => stopped c (changes.kept (c := c) id running).1

theorem Minds.mono (minds : w.Minds excused place attends) (goes_on : ∀ m, attends m → attends' m) :
    w.Minds excused place attends' := by
  intro c running here
  rcases minds c running here with excuse | ⟨m, same, latest, attended⟩
  · exact Or.inl excuse
  · exact Or.inr ⟨m, same, latest, goes_on m attended⟩

/-- What is minded stays so over changes elsewhere, if what attended to it goes on to. -/
theorem Minds.later (minds : w.Minds excused place attends) (changes : w.Changes set about v)
    (unset : ∀ path, place path → ¬ set path)
    (goes_on : ∀ m, attends m → ¬ v.Stopped m.route → ¬ about m.route ∧ attends' m) :
    v.Minds excused place attends' := by
  intro c running here
  obtain ⟨before, started, latest_too⟩ := changes.kept (unset _ here) running
  rw [started]
  rcases minds c before here with excuse | ⟨m, same, latest, attended⟩
  · exact Or.inl excuse
  · have runs : ¬ v.Stopped m.route := by
      intro stopped
      apply stopped c running
      rw [← same]
      rfl
    obtain ⟨apart, attended'⟩ := goes_on m attended runs
    exact Or.inr ⟨m, same, latest_too m latest apart, attended'⟩

end World

end Stepwise
