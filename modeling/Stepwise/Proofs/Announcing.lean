import Stepwise.Proofs.History
import Stepwise.Proofs.Journal
import Stepwise.Proofs.Removals
import Stepwise.Proofs.Reports

/-!
# How the end of a run is announced

A root that runs past its last block is finished from then on. It gives back its own reminder and
then announces its end. Any request of the run may be refused. The end is never announced twice and
never before the root has finished, but the host can prevent that it is announced: where it refuses
to take back the reminder of the root itself, the root has finished already, and there is no further
event with which it could come to its end.
-/

namespace Stepwise

variable {σ : Type}

/-- How often the root has announced its end. -/
def announced (journal : List Entry) : Nat := (reportsIn journal).countP (·.1 = .finished)

theorem announced_of_reports {first second : List Entry}
    (same : reportsIn second = reportsIn first) :
    announced second = announced first := by
  rw [announced, same, announced]

theorem announced_entered (address : List Nat) (index : Nat) (text : String)
    (journal : List Entry) :
    announced (.entered address index text :: journal) = announced journal := by
  rw [announced, reportsIn_cons, List.countP_append]
  cases address <;> rfl

theorem announced_left (address : List Nat) (index : Nat) (text : String) (journal : List Entry) :
    announced (.left address index text :: journal) = announced journal := by
  rw [announced, reportsIn_cons, List.countP_append]
  cases address <;> rfl

theorem announced_finished (journal : List Entry) :
    announced (.finished [] :: journal) = announced journal + 1 := by
  rw [announced, reportsIn_cons, List.countP_append]
  rfl

/-- Threads are not at the root. -/
theorem Execution.Addressed.allWithin {e : Execution} (addressed : e.Addressed) :
    Stepwise.allWithin (· ≠ []) e.threads := by
  obtain ⟨-, address, inside⟩ := addressed
  refine (allWithin_forall _).mpr fun t mem => (inside t mem).within (fun _ n => ?_) ?_
  · exact List.append_ne_nil_of_right_ne_nil _ (List.cons_ne_nil n [])
  · rw [address t mem]
    exact List.append_ne_nil_of_right_ne_nil _ (List.cons_ne_nil _ [])

/-- The latest entry is that the removal of this reminder was refused. -/
def RefusedLast (number : Option Nat) (journal : List Entry) : Prop :=
  ∃ id error earlier, number = some id ∧
    journal = .asked (.removeReminder id) (.error error) :: earlier

/-- How far a root has come: it goes on and holds its reminder, it has ended and announced that, or
its end was cut short. -/
inductive Sequence.Comes (number : Option Nat) (journal : List Entry) (s : Sequence) : Prop
  | on (unfinished : s.finished = false) (same : s.handle = number) (silent : announced journal = 0)
  | toEnd (finished : s.finished = true) (free : s.handle = none) {earlier : List Entry}
      (told : journal = .finished [] :: earlier) (silent : announced earlier = 0)
  | short (finished : s.finished = true) (free : s.handle = none) (silent : announced journal = 0)
      (refused : RefusedLast number journal)

/-- How far a root has come that was the sequence given before it went on. -/
def Sequence.Turns (before : Sequence) (journal : List Entry) (s : Sequence) : Prop :=
  s.description = before.description ∧ s.reminder = before.reminder ∧
    s.Comes before.handle journal

namespace Execution

variable {services : Services σ} {w : World σ} {e : Execution} {b : Block} {rest : List Block}

/-- The root has gone on, as far as the host let it. -/
def TurnsOut (before : Sequence) (o : Outcome σ Execution Unit) : Prop :=
  o.Ends (fun _ e w => before.Turns w.journal e.toSequence)
    fun _ e w => before.Turns w.journal e.toSequence

/-- A root that has taken a step without coming to its end. -/
theorem turns_on {s : Sequence} (unfinished : e.finished = false) (silent : announced w.journal = 0)
    {v : World σ} (same : reportsIn v.journal = reportsIn w.journal)
    (line : s = { e.toSequence with behind := s.behind, ahead := s.ahead }) :
    e.toSequence.Turns v.journal s := by
  rw [line]
  exact ⟨rfl, rfl, .on unfinished rfl ((announced_of_reports same).trans silent)⟩

/-- The end of a root is announced, unless the host refuses to take back its reminder. -/
theorem finish_turns {s : Sequence} (root : s.address = []) (unfinished : s.finished = false)
    (silent : announced w.journal = 0) :
    (s.finish services w).Ends (fun _ line v => s.Turns v.journal line)
      fun _ line v => s.Turns v.journal line := by
  simp only [Sequence.finish, unfinished, Bool.false_eq_true, if_false]
  cases held : s.handle with
  | none =>
    have told : (w.note (.finished s.address)).journal = .finished [] :: w.journal := by
      rw [root]
      rfl
    simp only [Sequence.unregister]
    exact ⟨rfl, rfl, .toEnd rfl rfl told silent⟩
  | some id =>
    have asked : (w.removeReminder services id).2.journal =
        .asked (.removeReminder id) (w.removeReminder services id).1 :: w.journal := rfl
    have unchanged : announced (w.removeReminder services id).2.journal = 0 := by
      rw [asked, announced, reportsIn_cons, List.countP_append]
      exact silent
    simp only [Sequence.unregister]
    rcases called : w.removeReminder services id with ⟨answer, v⟩
    rw [called] at asked unchanged
    cases answer with
    | error error =>
      exact ⟨rfl, rfl, .short rfl rfl unchanged ⟨id, error, w.journal, held, asked⟩⟩
    | ok _ =>
      have told : (v.note (.finished s.address)).journal = .finished [] :: v.journal := by
        rw [root]
        rfl
      exact ⟨rfl, rfl, .toEnd rfl rfl told unchanged⟩

/-- The current block leaves, and the blocks ahead are entered. -/
theorem leave_turns_of (unfinished : e.finished = false) (silent : announced w.journal = 0)
    {ahead : List Block}
    (goes_on : ∀ left (v : World σ), announced v.journal = 0 →
      TurnsOut e.toSequence (Execution.enter services ⟨e.advance left ahead, []⟩ v)) :
    TurnsOut e.toSequence ((b.leave services w).bind
      (fun left => (⟨{ e.toSequence with ahead := left :: ahead }, []⟩ : Execution))
      fun _ left w => Execution.enter services ⟨e.advance left ahead, []⟩ (e.noteLeft left w)) := by
  have before : (quiet services (reportsIn w.journal)).Fine w (b.duties ++ []) := rfl
  refine (b.leave_monitored before).bind (fun _ left v same => ?_) fun _ left v same => ?_
  · exact turns_on unfinished silent same rfl
  · refine goes_on left _ ?_
    rw [Sequence.noteLeft, World.note, announced_left, announced_of_reports same, silent]

theorem enter_turns (e : Execution) : ∀ w : World σ, e.address = [] → e.finished = false →
    announced w.journal = 0 → TurnsOut e.toSequence (e.enter services w) := by
  induction e using enter_induction with
  | nil e now =>
    intro w root unfinished silent
    rw [enter_end services w now]
    exact (finish_turns root unfinished silent).within (fun _ _ _ turns => turns)
      fun _ _ _ turns => turns
  | cons e b rest now goes_on starts =>
    intro w root unfinished silent
    have before : (quiet services (reportsIn w.journal)).Fine w (b.duties ++ []) := rfl
    have registering := b.register_monitored before
    rcases registered : b.register services w with ⟨answer, v⟩
    rw [registered] at registering
    cases answer with
    | error error =>
      rw [enter_refused services now registered]
      exact turns_on unfinished silent registering rfl
    | ok handle =>
      have inside : ∀ n, (quiet services (reportsIn w.journal)).Follows (e.address ++ [n]) :=
        fun n => List.append_ne_nil_of_right_ne_nil _ (List.cons_ne_nil n [])
      rw [enter_block services now registered]
      refine (Block.arrive_monitored (b := { b with handle }) inside
        (fun _ _ _ _ _ => enter_monitored _) registering).bind
          (fun error part u same => ?_) fun leaves part u same => ?_
      · exact turns_on unfinished silent same.1 rfl
      · obtain ⟨arrived, threads⟩ := part
        have entered : announced (e.noteEntered arrived u).journal = 0 := by
          rw [Sequence.noteEntered, World.note, announced_entered, announced_of_reports same.1,
            silent]
        cases leaves with
        | false =>
          simp only [Bool.false_eq_true, if_false]
          exact ⟨rfl, rfl, .on unfinished rfl entered⟩
        | true =>
          exact leave_turns_of unfinished entered fun left x silent =>
            goes_on left handle x root unfinished silent

theorem leave_turns (root : e.address = []) (unfinished : e.finished = false)
    (inside : allWithin (· ≠ []) e.threads) (silent : announced w.journal = 0) (b : Block)
    (ahead : List Block) : TurnsOut e.toSequence (e.leave services b ahead w) := by
  have before : (quiet services (reportsIn w.journal)).Fine w (threadsDuties e.threads ++ []) := rfl
  unfold leave
  refine (cancelThreads_monitored inside before).bind (fun _ _ v same => ?_) fun _ _ v same => ?_
  · exact turns_on unfinished silent same rfl
  · have still_silent := (announced_of_reports same).trans silent
    refine leave_turns_of unfinished still_silent fun left x silent => ?_
    exact enter_turns ⟨e.advance left ahead, []⟩ x root unfinished silent

/-- A thread of a root has taken an event, and now its group goes on. -/
theorem afterThread_turns (root : e.address = []) (unfinished : e.finished = false)
    {before after : List Thread} (inside : allWithin (· ≠ []) (before ++ after))
    (silent : announced w.journal = 0) (b : Block) (rest : List Block) (join : Join) (t : Thread) :
    TurnsOut e.toSequence (e.afterThread services b rest join before after t w) := by
  unfold afterThread
  split
  · have still : (quiet services (reportsIn w.journal)).Fine w
        (threadsDuties (before ++ after) ++ []) := rfl
    refine (join.complete_monitored inside still).bind (fun _ part v same => ?_)
      fun ended part v same => ?_
    · exact turns_on unfinished silent same.1 rfl
    · obtain ⟨join, threads⟩ := part
      cases ended with
      | false => exact turns_on unfinished silent same.1 rfl
      | true =>
        exact leave_turns (e := ⟨{ e.toSequence with
          ahead := { b with activity := .parallel join } :: rest }, threads⟩) root unfinished same.2
          ((announced_of_reports same.1).trans silent) _ _
  · exact turns_on unfinished silent rfl rfl

theorem dispatch_turns (root : e.address = []) (unfinished : e.finished = false)
    (addressed : e.Addressed) (silent : announced w.journal = 0) (event : Event) (path : List Nat) :
    TurnsOut e.toSequence (e.dispatch services event path w) := by
  have inside := addressed.allWithin
  refine dispatch_cases path (fun notice => ?_) ?here ?thread
  case here =>
    intro b rest running now
    have before : (quiet services (reportsIn w.journal)).Fine w (b.duties ++ []) := rfl
    refine (b.react_monitored event before).bind (fun _ b v same => ?_) fun reaction b v same => ?_
    · exact turns_on unfinished silent same rfl
    · cases reaction with
      | stay => exact turns_on unfinished silent same rfl
      | leave after =>
        exact leave_turns root unfinished inside ((announced_of_reports same).trans silent) _ _
  case thread =>
    intro b rest join before t after further running now group threads less
    rw [threads, allWithin_append, allWithin_cons] at inside
    obtain ⟨before_inside, t_inside, after_inside⟩ := inside
    have still : (quiet services (reportsIn w.journal)).Fine w (t.execution.duties ++ []) := rfl
    refine (t.execution.dispatch_monitored event further t_inside still).bind
      (fun _ x v same => ?_) fun _ x v same => ?_
    · exact turns_on unfinished silent same.1 rfl
    · exact afterThread_turns root unfinished
        ((allWithin_append _ _).mpr ⟨before_inside, after_inside⟩)
        ((announced_of_reports same.1).trans silent) _ _ _ _
  · have passed : reportsIn (w.passOver notice).journal = reportsIn w.journal := by
      rw [World.passOver, World.note, reportsIn_cons]
      exact List.append_nil _
    exact turns_on unfinished silent passed rfl

end Execution

/-- The number under which the reminder of the sequence as a whole was added. -/
def Sequence.Owns (s : Sequence) (id : Nat) (journal : List Entry) : Prop :=
  ∃ label reminder, s.description = some label ∧ s.reminder = some reminder ∧
    .added label reminder (.ok id) ∈ journal

theorem Sequence.Owns.later {s : Sequence} {id : Nat} {earlier journal : List Entry}
    (owns : s.Owns id earlier) (suffix : earlier <:+ journal) : s.Owns id journal := by
  obtain ⟨label, reminder, description, periodic, added⟩ := owns
  exact ⟨label, reminder, description, periodic, suffix.subset added⟩

namespace Run

variable (services : Services σ)

/-- The call brought the root to its end, and there the host refused to take back the reminder of
the root. -/
structure CutShort (call : Call) (r : Run σ) : Prop where
  unfinished : r.root.finished = false
  finished : (r.perform services call).root.finished = true
  refused : ∃ id error earlier, (r.perform services call).world.journal =
      .asked (.removeReminder id) (.error error) :: earlier ∧
    (r.perform services call).root.Owns id earlier

/-- One of the calls was cut short. -/
def EndRefused (calls : List Call) (r : Run σ) : Prop :=
  ∃ earlier call later, calls = earlier ++ call :: later ∧
    CutShort services call (r.after services earlier)

variable {r : Run σ}

/-- The root is in its place, and its own reminder was added for it. -/
structure Announcing (r : Run σ) : Prop where
  inOrder : r.InOrder
  root : r.root.address = []
  owns : ∀ id, r.root.handle = some id → r.root.Owns id r.world.journal
  silent : r.root.finished = false → announced r.world.journal = 0

/-- The host has been asked for what no report tells of. -/
theorem turns_aside {s : Sequence} {w v : World σ} (unfinished : s.finished = false)
    (silent : announced w.journal = 0) (same : reportsIn v.journal = reportsIn w.journal) :
    s.Turns v.journal s :=
  ⟨rfl, rfl, .on unfinished rfl ((announced_of_reports same).trans silent)⟩

/-- A root that is started, from the sequence with the reminder that was added for it. -/
theorem begin_turns {e : Execution} {w : World σ} (root : e.address = [])
    (unfinished : e.finished = false) (silent : announced w.journal = 0)
    (owns : ∀ id, e.handle = some id → e.Owns id w.journal) :
    ∃ s : Sequence, s.description = e.description ∧ s.reminder = e.reminder ∧
      (∀ id, s.handle = some id → s.Owns id (begin services e w).world.journal) ∧
      s.Turns (begin services e w).world.journal (begin services e w).part.toSequence := by
  have enters : ∀ (handle : Option Nat) (v : World σ), announced v.journal = 0 →
      (∀ id, handle = some id → e.Owns id v.journal) →
      ∃ s : Sequence, s.description = e.description ∧ s.reminder = e.reminder ∧
        (∀ id, s.handle = some id → s.Owns id (Execution.enter services
          { e with started := true, handle } v).world.journal) ∧
        s.Turns (Execution.enter services { e with started := true, handle } v).world.journal
          (Execution.enter services { e with started := true, handle } v).part.toSequence := by
    intro handle v silent owns
    have entered : Execution.TurnsOut { e.toSequence with started := true, handle }
        (Execution.enter services { e with started := true, handle } v) :=
      Execution.enter_turns _ v root unfinished silent
    have onward : Onward (fun _ => True) v.journal
        (Execution.enter services { e with started := true, handle } v).world.journal :=
      Execution.enter_onward _ v
    exact ⟨{ e.toSequence with started := true, handle }, rfl, rfl,
      fun id held => (owns id held).later onward.suffix, entered.left⟩
  unfold begin
  simp only
  split
  · next reminder description periodic described =>
    have before : (quiet services (reportsIn w.journal)).Fine w [] := rfl
    have adding := (quiet services (reportsIn w.journal)).added description reminder before
    have noted : (w.addReminder services description reminder).2.journal =
        .added description reminder (w.addReminder services description reminder).1 :: w.journal :=
      rfl
    rcases called : w.addReminder services description reminder with ⟨answer, v⟩
    rw [called] at adding noted
    cases answer with
    | error error =>
      have same : reportsIn v.journal = reportsIn w.journal := adding
      refine ⟨e.toSequence, rfl, rfl, fun id held => (owns id held).later ?_, rfl, rfl,
        .on unfinished rfl ?_⟩
      · show w.journal <:+ v.journal
        rw [noted]
        exact List.suffix_cons _ _
      · exact (announced_of_reports same).trans silent
    | ok number =>
      refine enters (some number) v ((announced_of_reports adding).trans silent) fun id held => ?_
      cases held
      refine ⟨description, reminder, described, periodic, ?_⟩
      rw [noted]
      exact List.mem_cons_self
  · exact enters e.handle w silent owns

/-- A call on a root that goes on, from the sequence that it had once its reminder was started. -/
theorem Announcing.turns (announcing : r.Announcing) (unfinished : r.root.finished = false)
    (call : Call) :
    ∃ s : Sequence, s.description = r.root.description ∧ s.reminder = r.root.reminder ∧
      (∀ id, s.handle = some id → s.Owns id (r.perform services call).world.journal) ∧
      s.Turns (r.perform services call).world.journal
        (r.perform services call).root.toSequence := by
  obtain ⟨inOrder, root, owns, silent⟩ := announcing
  have silent := silent unfinished
  have still (id : Nat) (held : r.root.handle = some id) :
      r.root.Owns id (r.perform services call).world.journal :=
    (owns id held).later (r.perform_onward services call).suffix
  have paused : (quiet services (reportsIn r.world.journal)).Fine r.world [] := rfl
  cases call with
  | start =>
    cases started : r.root.started with
    | true =>
      simp only [perform, start, started, if_true] at still ⊢
      exact ⟨r.root.toSequence, rfl, rfl, still, turns_aside unfinished silent rfl⟩
    | false =>
      simp only [perform, start, started, Bool.false_eq_true, if_false]
      exact begin_turns services root unfinished silent owns
  | dispatch path event =>
    have delivered : Execution.TurnsOut r.root.toSequence
        (r.root.dispatch services event path r.world) :=
      Execution.dispatch_turns root unfinished inOrder.addressed silent event path
    exact ⟨r.root.toSequence, rfl, rfl, still, delivered.left⟩
  | push block => exact ⟨r.root.toSequence, rfl, rfl, still, rfl, rfl, .on unfinished rfl silent⟩
  | splice blocks =>
    rw [perform, splice, Sequence.splice_eq]
    exact ⟨r.root.toSequence, rfl, rfl, still, rfl, rfl, .on unfinished rfl silent⟩
  | requestPause =>
    have same := Answered.world ((quiet services _).requestPause paused)
    exact ⟨r.root.toSequence, rfl, rfl, still, turns_aside unfinished silent same⟩
  | releasePause token =>
    have same := Answered.world ((quiet services _).releasePause token paused)
    exact ⟨r.root.toSequence, rfl, rfl, still, turns_aside unfinished silent same⟩

/-- A call on a root that has finished adds blocks at most, and nothing is announced. -/
theorem perform_finished (inOrder : r.InOrder) (finished : r.root.finished = true) (call : Call) :
    (∃ ahead, (r.perform services call).root.toSequence = { r.root.toSequence with ahead }) ∧
      announced (r.perform services call).world.journal = announced r.world.journal := by
  have paused : (quiet services (reportsIn r.world.journal)).Fine r.world [] := rfl
  cases call with
  | start =>
    cases started : r.root.started with
    | true =>
      have same : r.perform services .start = r := by
        simp only [perform, start, started, if_true]
      rw [same]
      exact ⟨⟨r.root.ahead, rfl⟩, rfl⟩
    | false =>
      have unfinished := (inOrder.unstarted started).finished
      exact absurd (finished.symm.trans unfinished) Bool.true_eq_false.mp
  | dispatch path event =>
    have idle : r.root.isRunning = false := by simp [Sequence.isRunning, finished]
    simp only [perform, dispatch, Execution.dispatch_idle idle, ofOutcome]
    refine ⟨⟨r.root.ahead, rfl⟩, announced_of_reports ?_⟩
    rw [World.passOver, World.note, reportsIn_cons]
    exact List.append_nil _
  | push block => exact ⟨⟨_, rfl⟩, rfl⟩
  | splice blocks =>
    rw [perform, splice, Sequence.splice_eq]
    exact ⟨⟨_, rfl⟩, rfl⟩
  | requestPause =>
    have same := Answered.world ((quiet services _).requestPause paused)
    exact ⟨⟨r.root.ahead, rfl⟩, announced_of_reports same⟩
  | releasePause token =>
    have same := Answered.world ((quiet services _).releasePause token paused)
    exact ⟨⟨r.root.ahead, rfl⟩, announced_of_reports same⟩

theorem announcing_perform (announcing : r.Announcing) (call : Call) :
    (r.perform services call).Announcing := by
  have inOrder := inOrder_perform services r call announcing.inOrder
  have root : (r.perform services call).root.address = [] :=
    (perform_evolves services announcing.inOrder call).grows.line.address.trans announcing.root
  cases finished : r.root.finished with
  | true =>
    obtain ⟨⟨ahead, same⟩, -⟩ :=
      perform_finished services announcing.inOrder finished call
    refine ⟨inOrder, root, ?_, ?_⟩
    · intro id held
      rw [same] at held ⊢
      exact (announcing.owns id held).later (r.perform_onward services call).suffix
    · intro unfinished
      rw [same] at unfinished
      exact absurd (finished.symm.trans unfinished) nofun
  | false =>
    obtain ⟨s, -, -, owns, description, reminder, comes⟩ :=
      announcing.turns services finished call
    refine ⟨inOrder, root, ?_, ?_⟩
    · intro id held
      cases comes with
      | on _ same _ =>
        obtain ⟨label, periodic, described, reminded, added⟩ := owns id (same.symm.trans held)
        exact ⟨label, periodic, description.trans described, reminder.trans reminded, added⟩
      | toEnd _ free _ _ => exact absurd (free.symm.trans held) nofun
      | short _ free _ _ => exact absurd (free.symm.trans held) nofun
    · intro unfinished
      cases comes with
      | on _ _ silent => exact silent
      | toEnd finished _ _ _ => exact absurd (finished.symm.trans unfinished) nofun
      | short finished _ _ _ => exact absurd (finished.symm.trans unfinished) nofun

/-- What a single call does to a root that goes on: nothing is announced and the root goes on, or
its end comes and is announced, or the call is cut short. -/
theorem Announcing.fares (announcing : r.Announcing) (unfinished : r.root.finished = false)
    (call : Call) :
    let next := r.perform services call
    (next.root.finished = false ∧ ¬ CutShort services call r) ∨
      (next.root.finished = true ∧ announced next.world.journal = 1 ∧ ¬ CutShort services call r) ∨
      (next.root.finished = true ∧ announced next.world.journal = 0 ∧
        CutShort services call r) := by
  obtain ⟨s, -, -, owns, description, reminder, comes⟩ :=
    announcing.turns services unfinished call
  cases comes with
  | on going _ _ =>
    exact Or.inl ⟨going, fun cut => absurd (going.symm.trans cut.finished) nofun⟩
  | @toEnd finished _ earlier told silent =>
    refine Or.inr (Or.inl ⟨finished, ?_, fun cut => ?_⟩)
    · rw [told, announced_finished, silent]
    · obtain ⟨id, error, before, refused, -⟩ := cut.refused
      cases told.symm.trans refused
  | short finished _ silent refused =>
    refine Or.inr (Or.inr ⟨finished, silent, unfinished, finished, ?_⟩)
    obtain ⟨id, error, earlier, held, journal⟩ := refused
    obtain ⟨label, periodic, described, reminded, added⟩ := owns id held
    refine ⟨id, error, earlier, journal, label, periodic, description.trans described,
      reminder.trans reminded, ?_⟩
    rw [journal] at added
    exact (List.mem_cons.mp added).resolve_left nofun

theorem endRefused_cons (call : Call) (calls : List Call) :
    EndRefused services (call :: calls) r ↔
      CutShort services call r ∨ EndRefused services calls (r.perform services call) := by
  constructor
  · rintro ⟨earlier, call', later, same, cut⟩
    cases earlier with
    | nil =>
      obtain ⟨rfl, rfl⟩ := List.cons.inj same
      exact Or.inl cut
    | cons first earlier =>
      obtain ⟨rfl, rfl⟩ := List.cons.inj same
      exact Or.inr ⟨earlier, call', later, rfl, cut⟩
  · rintro (cut | ⟨earlier, call', later, rfl, cut⟩)
    · exact ⟨[], call, calls, rfl, cut⟩
    · exact ⟨call :: earlier, call', later, rfl, cut⟩

/-- Once the root has finished, no call is cut short and none announces anything. -/
theorem after_finished (inOrder : r.InOrder) (finished : r.root.finished = true)
    (calls : List Call) :
    (r.after services calls).root.finished = true ∧
      announced (r.after services calls).world.journal = announced r.world.journal ∧
      ¬ EndRefused services calls r := by
  induction calls generalizing r with
  | nil =>
    refine ⟨finished, rfl, ?_⟩
    rintro ⟨earlier, call, later, none, -⟩
    simp at none
  | cons call calls ih =>
    obtain ⟨⟨ahead, same⟩, told⟩ := perform_finished services inOrder finished call
    have still : (r.perform services call).root.finished = true := by rw [same]; exact finished
    obtain ⟨finished_after, told_after, uncut⟩ :=
      ih (inOrder_perform services r call inOrder) still
    refine ⟨finished_after, told_after.trans told, ?_⟩
    rw [endRefused_cons]
    rintro (cut | cut)
    · exact absurd (finished.symm.trans cut.unfinished) nofun
    · exact uncut cut

theorem Announcing.after (announcing : r.Announcing) (unfinished : r.root.finished = false)
    (calls : List Call) :
    let after := r.after services calls
    (after.root.finished = false ∧ announced after.world.journal = 0 ∧
      ¬ EndRefused services calls r) ∨
      (after.root.finished = true ∧ announced after.world.journal = 1 ∧
        ¬ EndRefused services calls r) ∨
      (after.root.finished = true ∧ announced after.world.journal = 0 ∧
        EndRefused services calls r) := by
  induction calls generalizing r with
  | nil =>
    refine Or.inl ⟨unfinished, announcing.silent unfinished, ?_⟩
    rintro ⟨earlier, call, later, none, -⟩
    simp at none
  | cons call calls ih =>
    have next := announcing_perform services announcing call
    have inOrder := next.inOrder
    simp only [endRefused_cons, Run.after]
    rcases announcing.fares services unfinished call with
      ⟨going, uncut⟩ | ⟨finished, told, uncut⟩ | ⟨finished, told, cut⟩
    · simpa only [uncut, false_or] using ih next going
    · obtain ⟨finished_after, told_after, uncut_after⟩ :=
        after_finished services inOrder finished calls
      exact Or.inr (Or.inl ⟨finished_after, told_after.trans told, not_or.mpr ⟨uncut, uncut_after⟩⟩)
    · obtain ⟨finished_after, told_after, -⟩ :=
        after_finished services inOrder finished calls
      exact Or.inr (Or.inr ⟨finished_after, told_after.trans told, Or.inl cut⟩)

theorem Assembled.announcing {blocks : List HostBlock} (assembled : r.Assembled blocks) :
    r.Announcing ∧ r.root.finished = false := by
  obtain ⟨description, reminder, root⟩ := assembled.root
  refine ⟨⟨assembled.toFresh.inOrder, ?_, ?_, ?_⟩, ?_⟩
  · rw [root]
    rfl
  · rw [root]
    nofun
  · intro _
    rw [announced, reportsIn_of_makings assembled.journal]
    rfl
  · rw [root]
    rfl

/-- In every state that calls can lead to, whatever the host refused and whichever callbacks failed:
the end of the run was announced at most once, and never of a root that goes on. A root that has
finished has announced it unless the call that brought it to its end was cut short there, because
the host refused to take back the reminder of the root. -/
theorem end_announced {blocks : List HostBlock} (assembled : r.Assembled blocks)
    (calls : List Call) :
    let after := r.after services calls
    announced after.world.journal ≤ 1 ∧
      (announced after.world.journal = 1 ↔
        after.root.finished = true ∧ ¬ EndRefused services calls r) ∧
      (EndRefused services calls r → after.root.finished = true) := by
  obtain ⟨announcing, unfinished⟩ := assembled.announcing
  intro after
  rcases announcing.after services unfinished calls with
    ⟨going, told, uncut⟩ | ⟨finished, told, uncut⟩ | ⟨finished, told, cut⟩
  · simp [after, going, told, uncut]
  · simp [after, finished, told, uncut]
  · simp [after, finished, told, cut]

/-- A run with a reminder of its own, and a block with one too. The third request is refused. -/
def baking : Run (InMemory × List Bool) :=
  .ofWorkflow ⟨"bread", none, some ⟨10, .minutes⟩,
    [(Template.task "knead").withReminder ⟨2, .minutes⟩, .task "bake"]⟩
    (.empty, [false, false, true])

/-- The reminder that is not taken back is that of a block, and the end is announced. -/
theorem end_announced_baking :
    let calls : List Call := [.start, .dispatch [] .done, .dispatch [] .done, .dispatch [] .done,
      .dispatch [] .done]
    let after := baking.after wavering calls
    (after.root.finished = true ∧ announced after.world.journal = 1 ∧
      after.world.host.1.reminders.ids = [2]) ∧
    announced after.world.journal ≤ 1 ∧
      (announced after.world.journal = 1 ↔
        after.root.finished = true ∧ ¬ EndRefused wavering calls baking) ∧
      (EndRefused wavering calls baking → after.root.finished = true) :=
  ⟨by decide +kernel, end_announced wavering (assembled_ofWorkflow _ _) _⟩

def porridge : Run InMemory :=
  .ofWorkflow ⟨"porridge", none, some ⟨10, .minutes⟩, [.task "stir"]⟩ .empty

/-- The host does not take back the reminder of the run. The run has finished and its end is never
announced, also when the host answers again. -/
theorem porridge_unannounced :
    let failing (now : Bool) (m : InMemory) : InMemory :=
      { m with reminders := { m.reminders with failing := now } }
    let stirring := porridge.after InMemory.services [.start]
    let ended := ((stirring.changeHost (failing true)).perform InMemory.services
      (.dispatch [] .done)).changeHost (failing false)
    let later := ended.perform InMemory.services (.dispatch [] .done)
    (ended.root.finished = true ∧ announced ended.world.journal = 0) ∧
      later.root.finished = true ∧ announced later.world.journal = 0 := by
  decide +kernel

end Run

end Stepwise
