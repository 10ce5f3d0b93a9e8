import Stepwise.Proofs.Countdowns.Attending

/-!
# Entering minds the countdown

Before a sequence is entered no countdown runs for its place, the addresses below its own, unless it
is excused. Whatever is set for the place on the way is attended to at the end: a wait that stays
current attends to the countdown that it set itself, and a group that stays open has the thread in
it whose wait does. A countdown of another place is left alone.
-/

namespace Stepwise

variable {excused : Nat → Countdown → Prop}

/-- Nothing attends to the countdown. -/
abbrev Unattended (_m : Setting) : Prop := False

namespace World.Minds

variable {place inner about : List Nat → Prop} {attends attends' attends_in : Setting → Prop}
  {w v : World InMemory}

/-- What runs unattended is excused already, and no change that sets nothing can make it worse. -/
theorem unattended (minds : w.Minds excused place Unattended) (changes : w.Changes Nowhere about v) :
    v.Minds excused place Unattended :=
  minds.later changes (fun _ _ => id) fun _ => False.elim

theorem of_unattended (minds : w.Minds excused place Unattended) : w.Minds excused place attends :=
  minds.mono fun _ => False.elim

/-- A part of the place minds its own countdown, and the rest of the place is left alone. -/
theorem beside (minds : w.Minds excused place attends) (changes : w.Changes inner inner v)
    (within : v.Minds excused inner attends_in)
    (others : ∀ m, attends m → ¬ inner m.route → attends' m) :
    v.Minds excused place fun m => attends' m ∨ attends_in m := by
  intro c running here
  by_cases inside : inner c.route
  · rcases within c running inside with excuse | ⟨m, same, latest, attended⟩
    · exact Or.inl excuse
    · exact Or.inr ⟨m, same, latest, Or.inr attended⟩
  · obtain ⟨before, started, latest_too⟩ := changes.kept inside running
    rcases minds c before here with excuse | ⟨m, rfl, latest, attended⟩
    · exact Or.inl (by rwa [started])
    · exact Or.inr ⟨m, rfl, latest_too m latest inside, Or.inl (others m attended inside)⟩

end World.Minds

/-- Afterwards nothing runs unattended that did not before. -/
theorem cancelThreads_minds {place : List Nat → Prop} {threads : List Thread} {w : World InMemory}
    (minds : w.Minds excused place (anyAttends · threads)) :
    (cancelThreads InMemory.services threads w).Yields fun _ _ v =>
      v.Minds excused place Unattended := by
  rw [Outcome.yields_iff]
  intro a answered
  have changes : w.Changes Nowhere (fun _ => True)
      (cancelThreads InMemory.services threads w).world :=
    cancelThreads_changes w (allWithin_all (fun _ => trivial) threads)
  refine minds.later changes (fun _ _ => id) fun m attends runs => ?_
  exact absurd (Outcome.yields_iff.mp (cancelThreads_stops attends w) a answered) runs

theorem Join.complete_minds (join : Join) {place : List Nat → Prop} {threads : List Thread}
    {w : World InMemory} (minds : w.Minds excused place (anyAttends · threads)) :
    (join.complete InMemory.services threads w).Yields fun ended part v =>
      v.Minds excused place (anyAttends · part.2) ∧ (ended = true → part.2 = []) := by
  unfold complete
  simp only
  split
  · refine (cancelThreads_minds minds).bind_yields fun _ _ v minded => ?_
    split
    · exact ⟨minded, fun _ => rfl⟩
    · exact ⟨minded, fun _ => rfl⟩
  · exact ⟨minds, nofun⟩

/-- A sequence that is entered minds all countdowns of its place afterwards. -/
def Execution.EntersMinding (excused : Nat → Countdown → Prop) (e : Execution) : Prop :=
  e.threads = [] → e.isRunning = true → ∀ w : World InMemory,
    w.Minds excused (e.address <+: ·) Unattended →
    (e.enter InMemory.services w).Yields fun _ e' v => v.Minds excused (e.address <+: ·) (e'.Attends ·)

theorem Execution.below_branch {address path : List Nat} (inside : address <+: path) (n : Nat) :
    address <+: path ++ [n] :=
  inside.trans (List.prefix_append path [n])

theorem not_anyAttends_threadsFrom (m : Setting) (address : List Nat) (first : Nat)
    (branches : List (List Template)) : ¬ anyAttends m (threadsFrom address first branches) := by
  induction branches generalizing first with
  | nil => exact id
  | cons templates rest ih =>
    rintro (⟨running, -⟩ | there)
    · cases running
    · exact ih (first + 1) there

theorem startThreads_minds {branches : List (List Template)}
    (enters : ∀ templates ∈ branches, ∀ address,
      (startedThread address templates).EntersMinding excused)
    {address : List Nat} (first : Nat) {started : List Thread} (join : Join) {w : World InMemory}
    (numbered : Numbered address (started ++ threadsFrom address first branches))
    (minds : w.Minds excused (address <+: ·) (anyAttends · started)) :
    (startThreads InMemory.services (threadsFrom address first branches) started join w).Yields
      fun ended part v =>
        v.Minds excused (address <+: ·) (anyAttends · part.2) ∧ (ended = true → part.2 = []) := by
  induction branches generalizing first started join w with
  | nil =>
    rw [threadsFrom, startThreads]
    exact ⟨minds, fun ended => absurd ended Bool.false_ne_true⟩
  | cons templates rest ih =>
    have rest_enters := fun ts mem => enters ts (List.mem_cons_of_mem templates mem)
    rw [threadsFrom] at numbered
    have fewer : Numbered address (started ++ threadsFrom address (first + 1) rest) :=
      numbered.sublist ((List.sublist_cons_self _ _).append_left started)
    have apart : ∀ m, anyAttends m started → ¬ address ++ [first] <+: m.route := by
      intro m attends inside
      have before := numbered.sublist (List.sublist_append_left started _)
      obtain ⟨t, mem, below⟩ := before.attends_inside attends
      exact numbered.other_branch (List.mem_append_left _ mem) (branch_unique below inside)
    have thread_minds : w.Minds excused (address ++ [first] <+: ·) Unattended := by
      intro c running inside
      rcases minds c running ((List.prefix_append address [first]).trans inside) with
        excuse | ⟨m, rfl, -, attends⟩
      · exact Or.inl excuse
      · exact absurd inside (apart m attends)
    have entered := enters templates List.mem_cons_self (address ++ [first]) rfl rfl w thread_minds
    have within : (startedThread (address ++ [first]) templates).Within
        (address ++ [first] <+: ·) := ⟨List.prefix_refl _, trivial⟩
    have changes := Execution.enter_changes w Execution.below_branch within
    have evolves := Execution.enter_evolves InMemory.services
      (startedThread (address ++ [first]) templates) w rfl
    rw [startThreads_next]
    refine (entered.and (.of_left (P := fun e v =>
      (startedThread (address ++ [first]) templates).Evolves e ∧
        w.Changes (address ++ [first] <+: ·) (address ++ [first] <+: ·) v)
      ⟨evolves, changes⟩)).bind_yields ?_
    rintro _ e v ⟨minded, evolves, changes⟩
    have both := minds.beside changes minded fun m attends _ => attends
    have replaced := numbered.replace evolves.grows.line.address evolves.addressed
    split
    · next finished =>
      have rest_minds : v.Minds excused (address <+: ·)
          (anyAttends · (started ++ threadsFrom address (first + 1) rest)) := by
        refine both.mono fun m attends => ?_
        rcases attends with there | here
        · exact (anyAttends_append _ _).mpr (Or.inl there)
        · exact absurd (finished.symm.trans here.unfinished) Bool.true_eq_false.mp
      have sub := (join.complete_keeps InMemory.services
        (started ++ threadsFrom address (first + 1) rest) v).2
      refine ((join.complete_minds rest_minds).and (.of_left (P := fun part _ =>
        part.2.Sublist (started ++ threadsFrom address (first + 1) rest)) sub)).bind_yields ?_
      rintro ended ⟨join, others⟩ u ⟨⟨minded, gone⟩, sub⟩
      cases ended with
      | true => exact ⟨minded, gone⟩
      | false =>
        refine ih rest_enters (first + 1) join fewer (minded.mono fun m attends => ?_)
        obtain ⟨t, mem, attends_t⟩ := (anyAttends_iff _).mp attends
        have among := (anyAttends_iff _).mpr ⟨t, sub.subset mem, attends_t⟩
        refine ((anyAttends_append _ _).mp among).resolve_right ?_
        exact not_anyAttends_threadsFrom m address (first + 1) rest
    · refine ih rest_enters (first + 1) join ?_ (both.mono fun m attends => ?_)
      · rwa [List.append_assoc, List.singleton_append]
      · refine (anyAttends_append _ _).mpr (attends.imp_right fun here => ?_)
        exact Or.inl here

theorem World.startCountdown_sets (value : Int64) (unit : TimeUnit) (path : List Nat)
    (w : World InMemory) :
    Answered (fun _ v => v.journal = .asked (.startCountdown value unit path) (.ok ()) :: w.journal ∧
        v.host.countdown.running = some ⟨unit.toSeconds value, path⟩) (fun _ _ => True)
      (w.startCountdown InMemory.services value unit path) := by
  simp only [startCountdown, ask, InMemory.services, InMemory.onCountdown, CountdownBoard.start,
    CountdownBoard.answer]
  split
  · trivial
  · exact ⟨rfl, rfl⟩

/-- A wait has started, and has set its countdown last of all. -/
structure Sleep.Started (path : List Nat) (s s' : Sleep) (v : World InMemory) : Prop where
  value : s'.value = s.value
  unit : s'.unit = s.unit
  remaining : s'.remaining = fullLength s.value s.unit
  route : s'.route = path
  journal : ∃ earlier, v.journal = .asked (.startCountdown s.value s.unit path) (.ok ()) :: earlier
  runs : v.host.countdown.running = some ⟨s.unit.toSeconds s.value, path⟩

theorem Sleep.start_starts (s : Sleep) (path : List Nat) (w : World InMemory) :
    (s.start InMemory.services path w).Yields fun _ s' v => s.Started path s' v := by
  have sets (v : World InMemory) := v.startCountdown_sets s.value s.unit path
  unfold start
  simp only
  split
  · split
    · trivial
    · next token v _ =>
      refine (sets v).elim (fun _ u set => ?_) fun _ _ _ => trivial
      exact ⟨rfl, rfl, rfl, rfl, ⟨v.journal, set.1⟩, set.2⟩
  · refine (sets w).elim (fun _ u set => ?_) fun _ _ _ => trivial
    exact ⟨rfl, rfl, rfl, rfl, ⟨w.journal, set.1⟩, set.2⟩

namespace Execution

variable {e : Execution} {b : Block} {rest : List Block} {w : World InMemory}

/-- Where a block that is entered leaves the countdown, once its entry is noted. -/
def ArrivesMinding (excused : Nat → Countdown → Prop) (e : Execution) (rest : List Block) :
    Bool → Block × List Thread → World InMemory → Prop
  | true, _, v => v.Minds excused (e.address <+: ·) Unattended
  | false, (b, threads), v => (e.noteEntered b v).Minds excused (e.address <+: ·)
      (Attends · ⟨{ e.toSequence with ahead := b :: rest }, threads⟩)

/-- A wait that starts attends to its own countdown. -/
theorem arrive_asleep_minds (running : e.isRunning = true) {s : Sleep}
    (activity : b.activity = .sleep s) (positive : 0 < s.value) (rest : List Block)
    (w : World InMemory) :
    (Block.arrive InMemory.services e.address b w).Yields (e.ArrivesMinding excused rest) := by
  rw [Block.arrive_asleep InMemory.services e.address w activity positive]
  have started : ((s.start InMemory.services e.address w).bind (fun s => s)
      fun _ s w => (⟨.ok false, s, w⟩ : Outcome InMemory Sleep Bool)).Yields fun leaves s' v =>
        leaves = false ∧ s.Started e.address s' v :=
    (s.start_starts e.address w).bind_yields fun _ s' v set => ⟨rfl, set⟩
  refine started.within_yields ?_
  rintro _ s' v ⟨rfl, set⟩ c running_c -
  obtain ⟨earlier, journal⟩ := set.journal
  obtain rfl : ⟨s.unit.toSeconds s.value, e.address⟩ = c :=
    Option.some.inj (set.runs.symm.trans running_c)
  right
  refine ⟨⟨s.value, s.unit, e.address, e.cursor⟩, rfl, ?_, ?_⟩
  · exact ⟨[], _, earlier, congrArg (_ :: ·) journal, List.forall_mem_nil _⟩
  · refine attends_iff.mpr ⟨running, Or.inl ⟨_, s', rfl, rfl, ?_, set.route, ?_⟩⟩
    · rw [Sleep.isRunning, set.remaining]
      exact Sleep.isPositive_fullLength_of_pos positive s.unit
    · rw [set.value, set.unit]
      rfl

/-- What a block does when it is entered leaves every countdown of its place attended to, or, if the
block leaves at once, none is set there. -/
theorem arrive_minds (running : e.isRunning = true)
    (starts : ∀ join, b.activity = .parallel join → ∀ templates ∈ join.branches, ∀ address,
      (startedThread address templates).EntersMinding excused)
    (minds : w.Minds excused (e.address <+: ·) Unattended) (rest : List Block) :
    (Block.arrive InMemory.services e.address b w).Yields (e.ArrivesMinding excused rest) := by
  have noted (b : Block) (v : World InMemory) := e.noteEntered_changes v b
  cases activity : b.activity with
  | task | condition | asked =>
    rw [Block.arrive, activity]
    exact (minds.unattended (noted b w)).of_unattended
  | counted remaining entered body =>
    rw [Block.arrive_counted InMemory.services e.address w activity]
    split
    · exact minds.unattended (w.noteBuilt_changes body)
    · exact minds
  | sleep s =>
    by_cases positive : 0 < s.value
    · exact arrive_asleep_minds running activity positive rest w
    · rw [Block.arrive_elapsed InMemory.services e.address w activity positive]
      exact minds
  | parallel join =>
    by_cases none : join.branches = []
    · rw [Block.arrive_branchless InMemory.services e.address w activity none]
      exact minds
    · rw [Block.arrive_group InMemory.services e.address w activity none]
      have numbered := (Numbered.threadsFrom e.address 0 join.branches).1
      have opened : (w.noteOpened join.branches).Minds excused (e.address <+: ·) (anyAttends · []) :=
        (minds.unattended (w.noteOpened_changes join.branches)).of_unattended
      have started := startThreads_minds (starts join activity) 0 join.opened numbered opened
      have enters := fun templates (_ : templates ∈ join.branches) address =>
        (enter_evolves InMemory.services (startedThread address templates))
      have regrouped := (startThreads_numbered InMemory.services enters e.address 0 [] join.opened
        (w.noteOpened join.branches) numbered).2
      refine (started.and (.of_left (P := fun part _ => Numbered e.address part.2)
        regrouped)).within_yields ?_
      rintro ended ⟨join, threads⟩ v ⟨⟨minded, gone⟩, regrouped⟩
      cases ended with
      | true =>
        obtain rfl : threads = [] := gone rfl
        exact minded
      | false =>
        refine minded.later (noted _ v) (fun _ _ => id) fun m attends _ => ?_
        exact ⟨regrouped.attends_below attends, attends_iff.mpr ⟨running, Or.inr attends⟩⟩

theorem finish_minds {line : Sequence} (minds : w.Minds excused (line.address <+: ·) Unattended) :
    (line.finish InMemory.services w).Yields fun _ _ v =>
      v.Minds excused (line.address <+: ·) Unattended := by
  unfold Sequence.finish
  split
  · exact minds
  · have removed := minds.unattended
      (Sequence.unregister_changes w { line with finished := true })
    refine (Outcome.Ends.of_left (P := fun _ v => v.Minds excused (line.address <+: ·) Unattended)
      removed).bind_yields fun _ line' v minded => ?_
    have anywhere : (Entry.finished line'.address).IsNote fun _ => True := trivial
    exact minded.unattended (.note anywhere v)

theorem enter_minds (e : Execution) : e.EntersMinding excused := by
  induction e using enter_induction with
  | nil e now =>
    intro _ _ w minds
    rw [enter_end InMemory.services w now]
    exact (finish_minds minds).within_yields fun _ _ _ minded => minded.of_unattended
  | cons e b rest now goes_on starts =>
    intro _ running w minds
    have registering := minds.unattended (b.register_changes w)
    rcases registered : b.register InMemory.services w with ⟨answer, v⟩
    rw [registered] at registering
    cases answer with
    | error error =>
      rw [enter_refused InMemory.services now registered]
      trivial
    | ok handle =>
      rw [enter_block InMemory.services now registered]
      have arrived := arrive_minds (b := { b with handle }) running starts registering rest
      refine arrived.bind_yields ?_
      rintro leaves ⟨c, threads⟩ u minded
      cases leaves with
      | false => exact minded
      | true =>
        have entered := minded.unattended (e.noteEntered_changes u c)
        have left := entered.unattended (c.leave_changes (e.noteEntered c u))
        simp only [if_true]
        refine (Outcome.Ends.of_left (P := fun _ v => v.Minds excused (e.address <+: ·) Unattended)
          left).bind_yields fun _ d v minded => ?_
        exact goes_on d handle rfl running _ (minded.unattended (e.noteLeft_changes v d))

end Execution

end Stepwise
