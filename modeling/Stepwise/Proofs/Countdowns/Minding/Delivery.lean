import Stepwise.Proofs.Countdowns.Minding

/-!
# Events mind the countdown

An event changes the countdown of the thread that it is for, and what the blocks after it set. The
one way in which it can make a wait lose sight of its countdown is to use up the seconds by the
wait's own count, and then the countdown has to be excused beforehand.
-/

namespace Stepwise

variable {excused : Nat → Countdown → Prop}

/-- A wait that takes the event has no seconds left by its own count. -/
def Event.Exhausts : Event → Prop
  | .tick remaining => remaining.isPositive = false
  | .elapsed => True
  | _ => False

namespace World.Minds

variable {place : List Nat → Prop} {attends : Setting → Prop} {w : World InMemory} {event : Event}
  {path : List Nat}

/-- A countdown that an event for its own wait cannot be left with is excused already. -/
theorem unspent (minds : w.Minds excused place attends)
    (spent : event.Exhausts → w.Minds excused (· = path) Unattended) :
    w.Minds excused place fun m => attends m ∧ (m.route = path → ¬ event.Exhausts) := by
  intro c running here
  rcases minds c running here with excuse | ⟨m, rfl, latest, attended⟩
  · exact Or.inl excuse
  · by_cases exhausted : m.route = path ∧ event.Exhausts
    · rcases spent exhausted.2 _ running exhausted.1 with excuse | ⟨_, _, _, nobody⟩
      · exact Or.inl excuse
      · exact False.elim nobody
    · exact Or.inr ⟨m, rfl, latest, attended, fun same exhausts => exhausted ⟨same, exhausts⟩⟩

end World.Minds

namespace Execution

variable {e : Execution} {b : Block} {rest : List Block} {w : World InMemory}

/-- A group itself sets no countdown. -/
theorem Attends.inside_group {m : Setting} (attends : e.Attends m) (now : e.ahead = b :: rest)
    {join : Join} (group : b.join? = some join) : anyAttends m e.threads := by
  refine (attends_iff.mp attends).2.resolve_left ?_
  rintro ⟨c, s, now', asleep, -⟩
  rw [Sequence.current?, now] at now'
  cases now'
  rw [Block.activity_of_join? group] at asleep
  cases asleep

/-- Nothing that the current block attends to is left when it takes an event and leaves, and what it
attends to when it stays is the same. -/
def Heeds (e : Execution) (rest : List Block) (m : Setting) : Reaction → Block → Prop
  | .stay, b => Attends m ⟨{ e.toSequence with ahead := b :: rest }, e.threads⟩
  | .leave _, _ => anyAttends m e.threads

theorem Heeds.of_threads {m : Setting} (running : e.isRunning = true)
    (inside : anyAttends m e.threads) (reaction : Reaction) (b : Block) :
    e.Heeds rest m reaction b := by
  cases reaction with
  | stay => exact attends_iff.mpr ⟨running, Or.inr inside⟩
  | leave after => exact inside

theorem forceFinish_stops (w : World InMemory) :
    Answered (fun _ v => ∀ path, v.Stopped path) (fun _ _ => True)
      (w.forceFinish InMemory.services) := by
  simp only [World.forceFinish, World.ask, InMemory.services, InMemory.onCountdown,
    CountdownBoard.forceFinish, CountdownBoard.answer]
  split
  · trivial
  · rintro path c ⟨⟩

theorem react_heeds (now : e.ahead = b :: rest) (event : Event) (w : World InMemory) {m : Setting}
    (attends : e.Attends m) (unspent : m.route = e.address → ¬ event.Exhausts) :
    (b.react InMemory.services event w).Yields fun reaction b' v =>
      ¬ v.Stopped m.route → e.Heeds rest m reaction b' := by
  obtain ⟨running, ⟨c, s, now', asleep, counting, here, rfl⟩ | inside⟩ := attends_iff.mp attends
  · obtain rfl : b = c := by
      rw [Sequence.current?, now] at now'
      exact Option.some.inj now'
    have counts (remaining : Binary64) (positive : remaining.isPositive = true) :
        Sequence.Counts ⟨s.value, s.unit, e.address, e.cursor⟩ { e.toSequence with
          ahead := { b with activity := .sleep { s with remaining } } :: rest } :=
      ⟨_, { s with remaining }, rfl, rfl, positive, here, rfl⟩
    have as_before : Attends ⟨s.value, s.unit, e.address, e.cursor⟩
        ⟨{ e.toSequence with ahead := b :: rest }, e.threads⟩ :=
      ⟨running, Or.inl ⟨b, s, rfl, asleep, counting, here, rfl⟩⟩
    cases event with
    | done | yes | no =>
      simp only [Block.react, asleep]
      exact fun _ => as_before
    | tick remaining =>
      simp only [Block.react, asleep]
      exact fun _ => ⟨running, Or.inl (counts remaining (Bool.eq_true_of_not_eq_false (unspent rfl)))⟩
    | elapsed => exact absurd trivial (unspent rfl)
    | skip =>
      simp only [Block.react, asleep]
      refine (forceFinish_stops w).elim (fun _ v stopped => ?_) fun _ _ _ => trivial
      exact fun runs => absurd (stopped _) runs
  · rw [Outcome.yields_iff]
    exact fun reaction _ _ => .of_threads running inside reaction _

theorem react_changes (b : Block) (event : Event) (w : World InMemory) :
    w.Changes Nowhere Nowhere (b.react InMemory.services event w).world := by
  have both : (b.react InMemory.services event w).Ends (fun _ _ v => w.Replays v)
      fun _ _ v => w.Replays v := b.react_monitored event (Monitor.fine_ofBoard w (b.duties ++ []))
  exact .of_progress (b.react_adds event w) (Outcome.Ends.left (P := fun _ v => w.Replays v) both)

/-- The current block leaves, with its threads if it has any, and what is ahead is entered. -/
theorem leave_minds (running : e.isRunning = true) (b : Block) (ahead : List Block)
    (minds : w.Minds excused (e.address <+: ·) (anyAttends · e.threads)) :
    (e.leave InMemory.services b ahead w).Yields fun _ e' v =>
      v.Minds excused (e.address <+: ·) (e'.Attends ·) := by
  unfold leave
  refine (cancelThreads_minds minds).bind_yields fun _ _ v minded => ?_
  have left := minded.unattended (b.leave_changes v)
  refine (Outcome.Ends.of_left (P := fun _ v => v.Minds excused (e.address <+: ·) Unattended)
    left).bind_yields fun _ c u minded => ?_
  exact enter_minds ⟨e.advance c ahead, []⟩ rfl running _ (minded.unattended (e.noteLeft_changes u c))

theorem afterThread_minds (running : e.isRunning = true) (b : Block) (rest : List Block)
    (join : Join) {before after : List Thread} {t : Thread}
    (minds : w.Minds excused (e.address <+: ·)
      fun m => anyAttends m (before ++ after) ∨ t.execution.Attends m) :
    (e.afterThread InMemory.services b rest join before after t w).Yields fun _ e' v =>
      v.Minds excused (e.address <+: ·) (e'.Attends ·) := by
  unfold afterThread
  simp only
  split
  · next finished =>
    have others : w.Minds excused (e.address <+: ·) (anyAttends · (before ++ after)) := by
      refine minds.mono fun m attends => attends.resolve_right fun here => ?_
      exact absurd (finished.symm.trans here.unfinished) Bool.true_eq_false.mp
    refine (join.complete_minds others).bind_yields ?_
    rintro ended ⟨join, threads⟩ v ⟨minded, -⟩
    cases ended with
    | true =>
      have regrouped : (⟨{ e.toSequence with
          ahead := { b with activity := .parallel join } :: rest }, threads⟩ : Execution).isRunning =
            true := running
      exact leave_minds regrouped _ rest minded
    | false => exact minded.mono fun m attends => attends_iff.mpr ⟨running, Or.inr attends⟩
  · refine minds.mono fun m attends => attends_iff.mpr ⟨running, Or.inr ?_⟩
    rw [anyAttends_append, anyAttends_cons]
    rw [anyAttends_append] at attends
    rcases attends with (front | back) | here
    · exact Or.inl front
    · exact Or.inr (Or.inr back)
    · exact Or.inr (Or.inl here)

theorem dispatch_changes {place : List Nat → Prop}
    (branch : ∀ {address}, place address → ∀ n, place (address ++ [n])) (inside : e.Within place)
    (event : Event) (path : List Nat) (w : World InMemory) :
    w.Changes place place (e.dispatch InMemory.services event path w).world := by
  have kept := dispatch_monitored e event path (e.within_all fun _ => trivial)
    (Monitor.fine_ofBoard w (e.duties ++ []))
  have replays := (kept.mono (fun _ _ _ => And.left) fun _ _ _ => And.left).left
  exact .of_progress (dispatch_adds branch inside event path w) replays

section Threads

variable {join : Join} {before after : List Thread} {t : Thread} {m : Setting}

/-- What a group attends to is attended to by one of its threads. -/
theorem Attends.parts (attends : e.Attends m) (now : e.ahead = b :: rest)
    (group : b.join? = some join) (threads : e.threads = before ++ t :: after) :
    anyAttends m (before ++ after) ∨ t.execution.Attends m := by
  have inside := attends.inside_group now group
  rw [threads, anyAttends_append, anyAttends_cons] at inside
  rw [anyAttends_append]
  rcases inside with front | here | back
  · exact Or.inl (Or.inl front)
  · exact Or.inr here
  · exact Or.inl (Or.inr back)

theorem Addressed.others_apart (addressed : e.Addressed) (threads : e.threads = before ++ t :: after)
    (attends : anyAttends m (before ++ after)) : ¬ t.execution.address <+: m.route := by
  have numbered := addressed_iff.mp addressed
  have t_mem : t ∈ e.threads := threads ▸ List.mem_append_right _ List.mem_cons_self
  rw [numbered.address t t_mem]
  rw [threads] at numbered
  have fewer := numbered.sublist ((List.sublist_cons_self t after).append_left before)
  obtain ⟨s, mem, below⟩ := fewer.attends_inside attends
  exact fun inside => numbered.other_branch mem (branch_unique below inside)

/-- The thread attends to the countdowns of its own place. -/
theorem thread_minds (addressed : e.Addressed) (now : e.ahead = b :: rest)
    (group : b.join? = some join) (threads : e.threads = before ++ t :: after)
    (minds : w.Minds excused (e.address <+: ·) (e.Attends ·)) :
    w.Minds excused (t.execution.address <+: ·) (t.execution.Attends ·) := by
  have t_mem : t ∈ e.threads := threads ▸ List.mem_append_right _ List.mem_cons_self
  have below : e.address <+: t.execution.address :=
    (addressed_iff.mp addressed).address t t_mem ▸ List.prefix_append _ _
  intro c running inside
  rcases minds c running (below.trans inside) with excuse | ⟨m, rfl, latest, attends⟩
  · exact Or.inl excuse
  · have here := (attends.parts now group threads).resolve_left fun apart =>
      addressed.others_apart threads apart inside
    exact Or.inr ⟨m, rfl, latest, here⟩

end Threads

/-- An event keeps every countdown of the place attended to, unless it is excused. -/
theorem dispatch_minds (addressed : e.Addressed) (event : Event) (path : List Nat)
    (minds : w.Minds excused (e.address <+: ·) (e.Attends ·))
    (spent : event.Exhausts → w.Minds excused (· = e.address ++ path) Unattended) :
    (e.dispatch InMemory.services event path w).Yields fun _ e' v =>
      v.Minds excused (e.address <+: ·) (e'.Attends ·) := by
  induction depth : path.length using Nat.strongRecOn generalizing e path w with
  | ind n ih =>
  subst depth
  refine dispatch_along (motive := fun o => o.Yields fun _ e' v =>
    v.Minds excused (e.address <+: ·) (e'.Attends ·)) path ?passed ?here ?thread
  case passed =>
    intro notice
    have anywhere : (Entry.passedOver notice).IsNote Nowhere := trivial
    exact minds.later (.note anywhere w) (fun _ _ => id) fun m attends _ => ⟨id, attends⟩
  case here =>
    rintro b rest rfl running now
    rw [List.append_nil] at spent
    have changes := react_changes b event w
    have heeds := fun m attends => react_heeds now event w (m := m) attends
    have minded : (b.react InMemory.services event w).Yields fun reaction b' v =>
        v.Minds excused (e.address <+: ·) fun m => e.Heeds rest m reaction b' := by
      rw [Outcome.yields_iff]
      intro reaction answered
      refine (minds.unspent spent).later changes (fun _ _ => id) ?_
      rintro m ⟨attends, unspent⟩ runs
      exact ⟨id, Outcome.yields_iff.mp (heeds m attends unspent) reaction answered runs⟩
    refine minded.bind_yields fun reaction b' v minded => ?_
    cases reaction with
    | stay => exact minded
    | leave after => exact leave_minds running b' (after ++ rest) minded
  case thread =>
    rintro b rest join before t after further rfl running now group threads
    have numbered := addressed_iff.mp addressed
    have t_mem : t ∈ e.threads := threads ▸ List.mem_append_right _ List.mem_cons_self
    have t_address := numbered.address t t_mem
    have t_addressed := numbered.inside t t_mem
    have same : t.execution.address ++ further = e.address ++ t.branch :: further := by
      rw [t_address, List.append_assoc, List.singleton_append]
    have minded := thread_minds addressed now group threads minds
    have delivered := ih _ (Nat.lt_succ_self _) t_addressed further minded (by rwa [same]) rfl
    have within : t.execution.Within (t.execution.address <+: ·) :=
      t_addressed.within below_branch (List.prefix_refl _)
    have changes := dispatch_changes below_branch within event further w
    refine (delivered.and (.of_left (P := fun _ v =>
      w.Changes (t.execution.address <+: ·) (t.execution.address <+: ·) v) changes)).bind_yields ?_
    rintro _ x v ⟨minded, changes⟩
    have both := minds.beside changes minded fun m attends apart =>
      (attends.parts now group threads).resolve_right fun here =>
        apart (t_addressed.attends_inside here)
    exact afterThread_minds running b rest join both

end Execution

end Stepwise
