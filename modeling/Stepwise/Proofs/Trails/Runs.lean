import Stepwise.Proofs.Progress
import Stepwise.Proofs.Releasing.Runs
import Stepwise.Proofs.Trails

/-!
# Every execution of a run is on its trail

With a host that refuses nothing and callbacks that succeed, every sequence of a run is where its
trail leads: between two calls, and at the end of each operation within a call. The threads that are
cancelled, or finish and are taken off their group, are on their trail up to then.
-/

namespace Stepwise

variable {σ : Type} {Good : σ → Prop} {services : Services σ}

/-- A sequence that was put together from these blocks stands where its trail leads: the turns that
are over, the latest first, the entrance of the current block, which only a running sequence has,
and the blocks ahead with the current one as it came. One that has finished had the turns of all of
them; what a host adds to it afterwards has none. -/
inductive Sequence.OnTrail (journal : List Entry) (s : Sequence) (given : List Block)
    (done : List Stay) : Option Entrance → List Block → Prop
  | waiting (unstarted : s.started = false) (trail : Trail s.address given [] s.ahead)
      (none_behind : s.behind = []) (nothing : done = []) : s.OnTrail journal given done none s.ahead
  | finished (finished : s.finished = true) (trail : Trail s.address given done [])
      (behind : done.map Stay.left = s.behind) (recorded : Recorded done journal) :
      s.OnTrail journal given done none []
  | current {a : Entrance} {b : Block} {rest : List Block}
      (running : s.isRunning = true) (now : s.ahead = b :: rest) (current : a.Current b)
      (fits : a.Fits s.address) (trail : Trail s.address given done (a.block :: rest))
      (behind : done.map Stay.left = s.behind) (recorded : a.Recorded done journal) :
      s.OnTrail journal given done (some a) (a.block :: rest)

/-- The turn of the next block of a running sequence is about to begin. -/
structure Sequence.AtTurn (journal : List Entry) (s : Sequence) : Prop where
  running : s.isRunning = true
  place : ∃ given done, Trail s.address given done s.ahead ∧ done.map Stay.left = s.behind ∧
    Recorded done journal

/-- The turn of the current block of a running sequence is about to end, as this block, and these
blocks are ahead then. -/
inductive Sequence.AtEnd (journal : List Entry) (s : Sequence) (b : Block) : List Block → Prop
  | intro {a : Entrance} {given : List Block} {done : List Stay} {after rest : List Block}
      (running : s.isRunning = true) (departs : a.Departs b after)
      (fits : a.Fits s.address) (trail : Trail s.address given done (a.block :: rest))
      (behind : done.map Stay.left = s.behind) (recorded : a.Recorded done journal) :
      s.AtEnd journal b (after ++ rest)

namespace Sequence

variable {s : Sequence} {journal later : List Entry} {given : List Block} {done : List Stay}
  {now? : Option Entrance} {ahead : List Block} {b : Block}

theorem OnTrail.mono (place : s.OnTrail journal given done now? ahead)
    (further : journal <:+ later) : s.OnTrail later given done now? ahead := by
  cases place with
  | waiting unstarted trail none_behind nothing =>
    exact .waiting unstarted trail none_behind nothing
  | finished finished trail behind recorded =>
    exact .finished finished trail behind (recorded.mono further)
  | current running now current fits trail behind recorded =>
    exact .current running now current fits trail behind (recorded.mono further)

theorem OnTrail.trail (place : s.OnTrail journal given done now? ahead) :
    Trail s.address given done ahead := by
  cases place with
  | waiting unstarted trail none_behind nothing => exact nothing ▸ trail
  | finished finished trail behind recorded => exact trail
  | current running now current fits trail behind recorded => exact trail

theorem AtEnd.mono (place : s.AtEnd journal b ahead) (further : journal <:+ later) :
    s.AtEnd later b ahead := by
  obtain ⟨running, departs, fits, trail, behind, recorded⟩ := place
  exact .intro running departs fits trail behind (recorded.mono further)

theorem AtTurn.mono (place : s.AtTurn journal) (further : journal <:+ later) : s.AtTurn later := by
  obtain ⟨running, given, done, trail, behind, recorded⟩ := place
  exact ⟨running, given, done, trail, behind, recorded.mono further⟩

/-- The turn ends when the block has left, and the next one is about to begin. -/
theorem AtEnd.leave {w : World σ} (place : s.AtEnd w.journal b ahead) :
    (b.leave services w).Yields fun _ left v =>
      (s.advance left ahead).AtTurn (s.noteLeft left v).journal := by
  obtain ⟨running, departs, fits, trail, behind, recorded⟩ := place
  refine (departs.leave fits w).mono (fun _ _ _ _ => trivial) ?_
  rintro _ left v ⟨parting, journal, ends⟩
  refine ⟨running, _, _, trail.ended ends, congrArg (left :: ·) behind, ?_⟩
  rw [journal]
  exact recorded.left left

/-- A host puts blocks behind the current one. -/
theorem OnTrail.extend {front back : List Block} (place : s.OnTrail journal given done now? ahead)
    (now : s.ahead = front ++ back) (new : List Block) (behind : front = [] → back = []) :
    ∃ ahead', { s with ahead := front ++ (new ++ back) }.OnTrail journal given done now? ahead' := by
  cases place with
  | waiting unstarted trail none_behind nothing =>
    rw [now] at trail
    exact ⟨_, .waiting unstarted (trail.added new behind) none_behind nothing⟩
  | finished finished trail done_behind recorded =>
    exact ⟨_, .finished finished trail done_behind recorded⟩
  | @current a b rest running now' current fits trail done_behind recorded =>
    cases front with
    | nil => exact absurd (now'.symm.trans (now.trans (behind rfl))) (List.cons_ne_nil b rest)
    | cons c front =>
      obtain ⟨rfl, rfl⟩ := List.cons.inj (now'.symm.trans now)
      have further : Trail s.address given done ((a.block :: front) ++ (new ++ back)) :=
        .added trail new nofun
      exact ⟨_, .current running rfl current fits further done_behind recorded⟩

theorem splice_extends (s : Sequence) (blocks : List Block) :
    ∃ front back, s.ahead = front ++ back ∧ (front = [] → back = []) ∧
      (s.splice blocks).ahead = front ++ (blocks ++ back) := by
  unfold splice
  split
  · next none => exact ⟨[], [], none, fun _ => rfl, (List.append_nil blocks).symm⟩
  · next b rest now => exact ⟨[b], rest, now, fun none => absurd none (List.cons_ne_nil b []), rfl⟩

/-- The next block is entered, and either it is current then or its turn is about to end. -/
theorem AtTurn.arrive {rest : List Block} {handle : Option Nat} {w v : World σ}
    (place : s.AtTurn w.journal) (now : s.ahead = b :: rest)
    (registered : b.register services w = (.ok handle, v)) :
    (Block.arrive services s.address { b with handle } v).Yields fun leaves part u =>
      (leaves = false → ∃ given done now? ahead, { s with ahead := part.1 :: rest }.OnTrail
        (s.noteEntered part.1 u).journal given done now? ahead) ∧
      (leaves = true → s.AtEnd (s.noteEntered part.1 u).journal part.1
        (({ b with handle } : Block).pass ++ rest)) := by
  obtain ⟨running, given, done, trail, behind, recorded⟩ := place
  rw [now] at trail
  obtain ⟨adds, registers, noted⟩ := Block.register_registers registered
  refine (b.arrive_comes handle s.address v).mono (fun _ _ _ _ => trivial) ?_
  rintro leaves ⟨arrived, threads⟩ u ⟨inner, noted', comes⟩
  obtain ⟨entries, same⟩ : ∃ entries, entries =
      Entry.entered s.address s.cursor arrived.shownText :: (inner ++ adds) := ⟨_, rfl⟩
  have comes := comes entries
  have fits : Entrance.Fits s.address ⟨b, handle, entries⟩ := by
    refine ⟨s.cursor, inner, adds, ?_, registers, comes.built⟩
    rw [← comes.shown]
    exact same
  have journal : (s.noteEntered arrived u).journal = [] ++ (entries ++ w.journal) := by
    simp only [same, noteEntered, World.note, noted', noted, List.nil_append, List.cons_append,
      List.append_assoc]
  have recorded : Entrance.Recorded ⟨b, handle, entries⟩ done (s.noteEntered arrived u).journal :=
    ⟨[], w.journal, journal, recorded⟩
  refine ⟨fun waits => ?_, fun leaves => ?_⟩
  · exact ⟨_, _, _, _, .current running rfl (comes.waits waits) fits trail behind recorded⟩
  · exact .intro running (comes.departs leaves) fits trail behind recorded

/-- The current block takes an event, and it is current still or its turn is about to end. -/
theorem OnTrail.react {rest : List Block} {w : World σ}
    (place : s.OnTrail w.journal given done now? ahead) (running : s.isRunning = true)
    (now : s.ahead = b :: rest) (event : Event) :
    (b.react services event w).Yields fun reaction b' v => w.journal <:+ v.journal ∧
      match reaction with
      | .stay => { s with ahead := b' :: rest }.OnTrail v.journal given done now? ahead
      | .leave after => s.AtEnd v.journal b' (after ++ rest) := by
  cases place with
  | waiting unstarted => simp [isRunning, unstarted] at running
  | finished finished => simp [isRunning, finished] at running
  | @current a b' rest' _ now' current fits trail behind recorded =>
    obtain ⟨rfl, rfl⟩ := List.cons.inj (now'.symm.trans now)
    have onward : Onward (fun _ => True) w.journal (b'.react services event w).world.journal :=
      b'.react_onward (fun _ => trivial) w
    have further : (b'.react services event w).Yields fun _ _ v => w.journal <:+ v.journal :=
      Outcome.yields_iff.mpr fun _ _ => onward.suffix
    refine (further.and (current.react event w)).mono (fun _ _ _ _ => trivial) ?_
    rintro reaction b v ⟨further, reacted⟩
    have recorded := recorded.mono further
    refine ⟨further, ?_⟩
    cases reaction with
    | stay => exact .current running rfl reacted fits trail behind recorded
    | leave after => exact .intro running reacted fits trail behind recorded

/-- A thread of the current group has finished, and the group goes on or its turn is about to end.
-/
theorem OnTrail.regroup {rest : List Block} {join join' : Join}
    (place : s.OnTrail journal given done now? ahead) (running : s.isRunning = true)
    (now : s.ahead = b :: rest) (activity : b.activity = .parallel join)
    (same : join'.plan = join.plan) :
    let s' := { s with ahead := { b with activity := .parallel join' } :: rest }
    s'.OnTrail journal given done now? ahead ∧
      s'.AtEnd journal { b with activity := .parallel join' } rest := by
  cases place with
  | waiting unstarted => simp [isRunning, unstarted] at running
  | finished finished => simp [isRunning, finished] at running
  | @current a b' rest' _ now' current fits trail behind recorded =>
    obtain ⟨rfl, rfl⟩ := List.cons.inj (now'.symm.trans now)
    have current := current.regrouped activity same
    have ends : AtEnd journal { s with ahead := { b' with activity := .parallel join' } :: rest' }
        { b' with activity := .parallel join' } ([] ++ rest') :=
      .intro running (current.departs_unsteady rfl) fits trail behind recorded
    exact ⟨.current running rfl current fits trail behind recorded, ends⟩

end Sequence

/-- The sequence of the execution and those of all threads in it are where their trails lead. -/
inductive Execution.Trailed (journal : List Entry) : Execution → Prop
  | intro {e : Execution} {given : List Block} {done : List Stay} {now? : Option Entrance}
      {ahead : List Block} (place : e.OnTrail journal given done now? ahead)
      (threads : ∀ t ∈ e.threads, Trailed journal t.execution) : Trailed journal e

def AllTrailed (journal : List Entry) (threads : List Thread) : Prop :=
  ∀ t ∈ threads, t.execution.Trailed journal

theorem Execution.Trailed.mono {e : Execution} {journal later : List Entry}
    (trailed : e.Trailed journal) (further : journal <:+ later) : e.Trailed later := by
  induction trailed with
  | intro place threads ih => exact .intro (place.mono further) ih

theorem AllTrailed.mono {threads : List Thread} {journal later : List Entry}
    (trailed : AllTrailed journal threads) (further : journal <:+ later) :
    AllTrailed later threads := fun t mem => (trailed t mem).mono further

theorem Execution.Trailed.thread? {e x : Execution} {journal : List Entry} {path : List Nat}
    (trailed : e.Trailed journal) (found : e.thread? path = some x) : x.Trailed journal := by
  induction path generalizing e with
  | nil =>
    cases found
    exact trailed
  | cons branch path ih =>
    obtain ⟨t, mem, -, -, inside⟩ := thread?_found found
    obtain ⟨-, threads⟩ := trailed
    exact ih (threads t mem) inside

/-- Threads that have not been started have had no turn. -/
theorem allTrailed_threadsFrom (journal : List Entry) (address : List Nat) (first : Nat)
    (branches : List (List Template)) :
    AllTrailed journal (threadsFrom address first branches) := by
  induction branches generalizing first with
  | nil => exact List.forall_mem_nil _
  | cons templates rest ih =>
    refine List.forall_mem_cons.mpr ⟨?_, ih (first + 1)⟩
    exact .intro (.waiting rfl .given rfl rfl) (List.forall_mem_nil _)

/-- An operation leaves the execution on its trail. -/
def Outcome.Trails (o : Outcome σ Execution Unit) : Prop :=
  o.Yields fun _ e w => e.Trailed w.journal

theorem Join.complete_trailed (j : Join) {others : List Thread} {w : World σ}
    (trailed : AllTrailed w.journal others) :
    (j.complete services others w).Yields fun _ part v =>
      w.journal <:+ v.journal ∧ part.1.plan = j.plan ∧ AllTrailed v.journal part.2 := by
  have further : Onward (fun _ => True) w.journal (j.complete services others w).world.journal :=
    j.complete_onward others w
  obtain ⟨plan, sub⟩ := j.complete_keeps services others w
  exact Outcome.yields_iff.mpr fun _ _ =>
    ⟨further.suffix, plan, fun t mem => (trailed t (sub.subset mem)).mono further.suffix⟩

/-- An execution whose next turn begins is on its trail when it has been entered. -/
def Execution.EntersTrailed (services : Services σ) (e : Execution) : Prop :=
  ∀ w : World σ, e.AtTurn w.journal → (e.enter services w).Trails

theorem atTurn_startedThread (address : List Nat) (templates : List Template)
    (journal : List Entry) : (startedThread address templates).AtTurn journal :=
  ⟨rfl, _, [], .given, rfl, trivial⟩

theorem startThreads_trailed {branches : List (List Template)}
    (enters : ∀ templates ∈ branches, ∀ address,
      (startedThread address templates).EntersTrailed services)
    (address : List Nat) (first : Nat) {started : List Thread} (join : Join) {w : World σ}
    (trailed : AllTrailed w.journal started) :
    (startThreads services (threadsFrom address first branches) started join w).Yields
      fun _ part v => AllTrailed v.journal part.2 := by
  induction branches generalizing first started join w with
  | nil =>
    rw [threadsFrom, startThreads]
    exact trailed
  | cons templates rest ih =>
    have later := fun ts mem => enters ts (List.mem_cons_of_mem templates mem)
    have entered := enters templates List.mem_cons_self (address ++ [first]) w
      (atTurn_startedThread _ _ _)
    have further : Onward (fun _ => True) w.journal
        ((startedThread (address ++ [first]) templates).enter services w).world.journal :=
      Execution.enter_onward _ w
    rw [startThreads_next]
    revert entered further
    generalize (startedThread (address ++ [first]) templates).enter services w = o
    obtain ⟨answer, e, v⟩ := o
    intro entered further
    cases answer with
    | error error => trivial
    | ok _ =>
      have entered : e.Trailed v.journal := entered
      have trailed := trailed.mono further.suffix
      have waiting := allTrailed_threadsFrom v.journal address (first + 1) rest
      simp only [Outcome.bind_ok]
      split
      · have counted : (join.complete services
            (started ++ threadsFrom address (first + 1) rest) v).Yields _ :=
          join.complete_trailed (List.forall_mem_append.mpr ⟨trailed, waiting⟩)
        refine counted.bind_yields fun ended part u all => ?_
        cases ended with
        | true => exact all.2.2
        | false => exact ih later (first + 1) part.1 (trailed.mono all.1)
      · exact ih later (first + 1) join
          (List.forall_mem_append.mpr ⟨trailed, List.forall_mem_singleton.mpr entered⟩)

theorem Block.arrive_trailed {b : Block}
    (enters : ∀ join, b.activity = .parallel join → ∀ templates ∈ join.branches, ∀ address,
      (startedThread address templates).EntersTrailed services) (address : List Nat) (w : World σ) :
    (Block.arrive services address b w).Yields fun _ part v => AllTrailed v.journal part.2 := by
  cases activity : b.activity with
  | task | condition | asked =>
    rw [Block.arrive, activity]
    exact List.forall_mem_nil _
  | counted remaining entered body =>
    rw [Block.arrive_counted services address w activity]
    split <;> exact List.forall_mem_nil _
  | sleep s =>
    by_cases positive : 0 < s.value
    · rw [Block.arrive_asleep services address w activity positive]
      exact Outcome.yields_iff.mpr fun _ _ => List.forall_mem_nil _
    · rw [Block.arrive_elapsed services address w activity positive]
      exact List.forall_mem_nil _
  | parallel join =>
    by_cases none : join.branches = []
    · rw [Block.arrive_branchless services address w activity none]
      exact List.forall_mem_nil _
    · rw [Block.arrive_group services address w activity none]
      exact (startThreads_trailed (enters join activity) address 0 join.opened
        (List.forall_mem_nil _)).within_yields fun _ _ _ trailed => trailed

theorem Sequence.finish_ends (s : Sequence) (unfinished : s.finished = false) (w : World σ) :
    (s.finish services w).Yields fun _ s' v =>
      w.journal <:+ v.journal ∧ ∃ handle, s' = { s with handle, finished := true } := by
  have ended : ({ s with finished := true }.unregister services w).Yields fun _ s' v =>
      w.journal <:+ v.journal ∧ ∃ handle, s' = { s with handle, finished := true } := by
    unfold unregister
    split
    · exact ⟨List.suffix_refl _, s.handle, rfl⟩
    · next id _ =>
      have removed : Onward (fun _ => True) w.journal (w.removeReminder services id).2.journal :=
        World.removeReminder_onward id w
      exact Outcome.yields_iff.mpr fun _ _ => ⟨removed.suffix, none, rfl⟩
  unfold finish
  simp only [unfinished, Bool.false_eq_true, if_false]
  exact ended.bind_yields fun _ _ _ ends => ⟨ends.1.trans (List.suffix_cons _ _), ends.2⟩

namespace Execution

variable {w : World σ} {e : Execution} {b : Block} {rest ahead : List Block}

theorem leave_trailed_of (goes_on : ∀ left, EntersTrailed services ⟨e.advance left ahead, []⟩)
    (place : e.AtEnd w.journal b ahead) (wrap : Block → Execution) :
    ((b.leave services w).bind wrap fun _ left w =>
      Execution.enter services ⟨e.advance left ahead, []⟩ (e.noteLeft left w)).Trails :=
  place.leave.bind_yields fun _ left v turn => goes_on left (e.noteLeft left v) turn

theorem enter_trailed (e : Execution) : e.EntersTrailed services := by
  induction e using enter_induction with
  | nil e now =>
    rintro w ⟨running, given, done, trail, behind, recorded⟩
    have unfinished : e.finished = false := by
      simp only [Sequence.isRunning, Bool.and_eq_true, Bool.not_eq_true'] at running
      exact running.1.2
    rw [Outcome.Trails, enter_end services w now]
    refine (e.toSequence.finish_ends unfinished w).within_yields ?_
    rintro _ _ v ⟨further, handle, rfl⟩
    rw [now] at trail
    exact .intro (.finished rfl trail behind (recorded.mono further)) (List.forall_mem_nil _)
  | cons e b rest now goes_on starts =>
    intro w place
    rcases registered : b.register services w with ⟨answer, v⟩
    cases answer with
    | error error =>
      rw [Outcome.Trails, enter_refused services now registered]
      trivial
    | ok handle =>
      rw [Outcome.Trails, enter_block services now registered]
      refine ((place.arrive now registered).and
        (Block.arrive_trailed (b := { b with handle }) starts e.address v)).bind_yields ?_
      rintro leaves ⟨arrived, threads⟩ u ⟨⟨waits, departs⟩, trailed⟩
      cases leaves with
      | false =>
        obtain ⟨given, done, now?, ahead, place⟩ := waits rfl
        exact .intro place (trailed.mono (List.suffix_cons _ _))
      | true => exact leave_trailed_of (fun left => goes_on left handle) (departs rfl) _

theorem leave_trailed (place : e.AtEnd w.journal b ahead) :
    (e.leave services b ahead w).Trails := by
  have cancelled : (cancelThreads services e.threads w).Yields fun _ _ v =>
      w.journal <:+ v.journal :=
    Outcome.yields_iff.mpr fun _ _ =>
      have onward : Onward (fun _ => True) w.journal _ := cancelThreads_onward e.threads w
      onward.suffix
  exact cancelled.bind_yields fun _ _ v further =>
    leave_trailed_of (fun left => enter_trailed _) (place.mono further) _

theorem dispatch_here_trailed (trailed : e.Trailed w.journal) (running : e.isRunning = true)
    (now : e.ahead = b :: rest) (event : Event) : (e.dispatch services event [] w).Trails := by
  obtain ⟨place, threads⟩ := trailed
  rw [Outcome.Trails, dispatch_here running now]
  refine (place.react running now event).bind_yields ?_
  rintro reaction b' v ⟨further, reacted⟩
  cases reaction with
  | stay => exact .intro reacted fun t mem => (threads t mem).mono further
  | leave after => exact leave_trailed reacted

theorem afterThread_trailed {given : List Block} {done : List Stay} {now? : Option Entrance}
    {join : Join} {before after : List Thread} {t : Thread}
    (place : e.OnTrail w.journal given done now? ahead) (running : e.isRunning = true)
    (now : e.ahead = b :: rest) (group : b.join? = some join)
    (threads : AllTrailed w.journal (before ++ t :: after)) :
    (e.afterThread services b rest join before after t w).Trails := by
  have activity := Block.activity_of_join? group
  unfold afterThread
  simp only
  split
  · have others : AllTrailed w.journal (before ++ after) := fun s mem =>
      threads s (((List.sublist_cons_self t after).append_left before).subset mem)
    have counted : (join.complete services (before ++ after) w).Yields _ :=
      join.complete_trailed others
    refine counted.bind_yields ?_
    rintro ended ⟨join', left⟩ v ⟨further, plan, trailed⟩
    obtain ⟨stays, ends⟩ := (place.mono further).regroup running now activity plan
    cases ended with
    | false => exact .intro stays trailed
    | true => exact leave_trailed ends
  · exact .intro place threads

theorem dispatch_trailed (trailed : e.Trailed w.journal) (event : Event) (path : List Nat) :
    (e.dispatch services event path w).Trails := by
  induction depth : path.length using Nat.strongRecOn generalizing path e with
  | ind n ih =>
  subst depth
  refine dispatch_cases path (fun notice => ?_) ?here ?thread
  case here =>
    intro b rest running now
    rw [← dispatch_here running now]
    exact dispatch_here_trailed trailed running now event
  case thread =>
    intro b rest join before t after deeper running now group threads less
    obtain ⟨place, inside⟩ := trailed
    rw [threads] at inside
    have onward : Onward (fun _ => True) w.journal
        (t.execution.dispatch services event deeper w).world.journal :=
      dispatch_onward _ _ _ _
    have goes_on : (t.execution.dispatch services event deeper w).Yields fun _ _ v =>
        w.journal <:+ v.journal :=
      Outcome.yields_iff.mpr fun _ _ => onward.suffix
    have moved : (t.execution.dispatch services event deeper w).Yields _ :=
      ih _ less (inside t (List.mem_append_right before List.mem_cons_self)) deeper rfl
    refine (moved.and goes_on).bind_yields ?_
    rintro _ x v ⟨x_trailed, further⟩
    refine afterThread_trailed (place.mono further) running now group ?_
    have others : AllTrailed v.journal (before ++ t :: after) :=
      fun s mem => (inside s mem).mono further
    obtain ⟨front, back⟩ := List.forall_mem_append.mp others
    exact List.forall_mem_append.mpr
      ⟨front, List.forall_mem_cons.mpr ⟨x_trailed, (List.forall_mem_cons.mp back).2⟩⟩
  exact trailed.mono (List.suffix_cons _ _)

end Execution

namespace Action

/-- What the operation works on is on its trail. -/
def Trailed (journal : List Entry) : Action → Prop
  | .enter e => e.AtTurn journal
  | .startThreads pending started _ => Pending pending ∧ AllTrailed journal started
  | .complete _ others => AllTrailed journal others
  | .leave b ahead e => e.AtEnd journal b ahead ∧ AllTrailed journal e.threads
  | .dispatch _ _ e => e.Trailed journal

end Action

theorem Pending.trailed {pending : List Thread} (fresh : Pending pending) (journal : List Entry) :
    AllTrailed journal pending := by
  obtain ⟨address, first, branches, rfl⟩ := fresh
  exact allTrailed_threadsFrom journal address first branches

namespace Action

variable {a a' : Action} {t : Thread} {w w' v : World σ}

theorem entered_suffix {e e' : Execution} (entered : e.enter services w = ⟨.ok (), e', v⟩) :
    w.journal <:+ v.journal := by
  have onward : Onward (fun _ => True) w.journal (e.enter services w).world.journal :=
    Execution.enter_onward e w
  rw [entered] at onward
  exact onward.suffix

theorem delivered_suffix {x x' : Execution} {event : Event} {path : List Nat}
    (delivered : x.dispatch services event path w = ⟨.ok (), x', v⟩) :
    w.journal <:+ v.journal := by
  have onward : Onward (fun _ => True) w.journal (x.dispatch services event path w).world.journal :=
    Execution.dispatch_onward x event path w
  rw [delivered] at onward
  exact onward.suffix

theorem cancelled_suffix {threads : List Thread}
    (cancelled : cancelThreads services threads w = ⟨.ok (), (), v⟩) :
    w.journal <:+ v.journal := by
  have onward : Onward (fun _ => True) w.journal (cancelThreads services threads w).world.journal :=
    cancelThreads_onward threads w
  rw [cancelled] at onward
  exact onward.suffix

/-- The threads around one that an event goes to, and that thread. -/
theorem passes_trailed {e : Execution} {branch : Nat} {b : Block} {rest : List Block}
    {join : Join} {before after : List Thread} {journal : List Entry}
    (passes : e.Passes branch b rest join before t after) (trailed : e.Trailed journal) :
    AllTrailed journal (before ++ after) ∧ t.execution.Trailed journal := by
  obtain ⟨-, inside⟩ := trailed
  rw [(findThread_some passes.found).1] at inside
  have fewer := (List.sublist_cons_self t after).append_left before
  exact ⟨fun s mem => inside s (fewer.subset mem),
    inside t (List.mem_append_right before List.mem_cons_self)⟩

theorem Begins.trailed (begins : Begins services a w a' w') (trailed : a.Trailed w.journal) :
    a'.Trailed w'.journal := by
  cases begins with
  | group => exact ⟨⟨_, _, _, rfl⟩, List.forall_mem_nil _⟩
  | @next e b arrived left rest handle threads w v u x now registered arrives leaves =>
    have place : e.AtTurn w.journal := trailed
    have arriving := place.arrive now registered
    rw [arrives] at arriving
    have leaving : (arrived.leave services (e.noteEntered arrived u)).Yields _ :=
      (arriving.2 rfl).leave
    rw [leaves] at leaving
    exact leaving
  | start =>
    obtain ⟨address, templates, fresh⟩ := trailed.1.next
    rw [fresh]
    exact atTurn_startedThread _ _ _
  | finishes entered finished =>
    have started := trailed.2.mono (entered_suffix entered)
    exact List.forall_mem_append.mpr ⟨started, trailed.1.later.trailed _⟩
  | @others branch e e' rest started left join join' w v u entered finished counted =>
    have others : AllTrailed v.journal (started ++ rest) :=
      List.forall_mem_append.mpr
        ⟨trailed.2.mono (entered_suffix entered), trailed.1.later.trailed _⟩
    have completed : (join.complete services (started ++ rest) v).Yields _ :=
      join.complete_trailed others
    rw [counted] at completed
    exact ⟨trailed.1.later, trailed.2.mono ((entered_suffix entered).trans completed.1)⟩
  | @waits branch e e' rest started join w v entered unfinished =>
    obtain ⟨address, templates, fresh⟩ := trailed.1.next
    have moved : (Execution.enter services { e with started := true } w).Trails := by
      rw [fresh]
      exact Execution.enter_trailed _ w (atTurn_startedThread _ _ _)
    rw [entered] at moved
    have here : e'.Trailed w'.journal := moved
    exact ⟨trailed.1.later, List.forall_mem_append.mpr
      ⟨trailed.2.mono (entered_suffix entered), List.forall_mem_singleton.mpr here⟩⟩
  | @reacts event e b b' rest after w v running now reacted =>
    obtain ⟨place, threads⟩ := trailed
    have reacting : (b.react services event w).Yields _ := place.react running now event
    rw [reacted] at reacting
    exact ⟨reacting.2, fun t mem => (threads t mem).mono reacting.1⟩
  | passes passes => exact (passes_trailed passes trailed).2
  | counts passes delivered finished =>
    exact (passes_trailed passes trailed).1.mono (delivered_suffix delivered)
  | @ends event branch path e x b rest join join' before after left t w v u passes delivered
      finished counted =>
    have others := (passes_trailed passes trailed).1.mono (delivered_suffix delivered)
    have completed : (join.complete services (before ++ after) v).Yields _ :=
      join.complete_trailed others
    rw [counted] at completed
    obtain ⟨further, plan, trailed'⟩ := completed
    obtain ⟨place, -⟩ := trailed
    have place := place.mono ((delivered_suffix delivered).trans further)
    exact ⟨(place.regroup passes.running passes.now (Block.activity_of_join? passes.group) plan).2,
      trailed'⟩
  | @onward b left ahead e w v u cancelled leaves =>
    have leaving : (b.leave services v).Yields _ :=
      (trailed.1.mono (cancelled_suffix cancelled)).leave
    rw [leaves] at leaving
    exact leaving

/-- A thread is on its trail up to when it is cancelled. -/
theorem Cancels.trailed (cancels : Cancels services a w t v) (trailed : a.Trailed w.journal) :
    t.execution.Trailed v.journal := by
  induction cancels with
  | joined enough earlier =>
    exact (trailed _ (by simp)).mono (cancelled_suffix earlier)
  | left threads earlier =>
    exact (trailed.2 _ (by simp [threads])).mono (cancelled_suffix earlier)
  | begun begins cancels ih => exact ih (begins.trailed trailed)
  | inside cancels running threads earlier ih =>
    obtain ⟨-, inside⟩ := ih trailed
    exact (inside _ (by simp [threads])).mono (cancelled_suffix earlier)

theorem Trailed.yields (trailed : a.Trailed w.journal) :
    a.Yields services (fun e v => e.Trailed v.journal) w := by
  cases a with
  | enter e => exact Execution.enter_trailed e w trailed
  | leave b ahead e => exact Execution.leave_trailed trailed.1
  | dispatch event path e => exact Execution.dispatch_trailed trailed event path
  | startThreads | complete => trivial

end Action

namespace Execution

/-- The first turn of an execution begins when it is started. -/
theorem Trailed.atTurn {e : Execution} {journal : List Entry} (trailed : e.Trailed journal)
    (unstarted : e.started = false) (fresh : Run.Unstarted e) (handle : Option Nat) :
    Sequence.AtTurn journal { e.toSequence with started := true, handle } := by
  obtain ⟨place, -⟩ := trailed
  cases place with
  | waiting _ trail none_behind =>
    refine ⟨?_, _, [], trail, none_behind.symm, trivial⟩
    simp [Sequence.isRunning, fresh.finished, fresh.cancelled]
  | finished finished => exact absurd (finished.symm.trans fresh.finished) Bool.true_eq_false.mp
  | current running => simp [Sequence.isRunning, unstarted] at running

/-- A host puts blocks behind the current one. -/
theorem Trailed.extend {e : Execution} {journal : List Entry} (trailed : e.Trailed journal)
    {front back : List Block} (now : e.ahead = front ++ back) (new : List Block)
    (behind : front = [] → back = []) :
    Trailed journal { e with ahead := front ++ (new ++ back) } := by
  obtain ⟨place, threads⟩ := trailed
  obtain ⟨ahead, place⟩ := place.extend now new behind
  exact .intro place threads

end Execution

namespace Run

variable {r : Run σ} {call : Call} {a : Action} {w : World σ}

theorem Begins.trailed (begins : r.Begins services call a w) (inOrder : r.InOrder)
    (trailed : r.root.Trailed r.world.journal) : a.Trailed w.journal := by
  cases begins with
  | @reminded reminder description id v unstarted reminds described added =>
    have onward : Onward (fun _ => True) r.world.journal
        (r.world.addReminder services description reminder).2.journal :=
      World.addReminder_onward description reminder r.world
    rw [added] at onward
    exact (trailed.atTurn unstarted (inOrder.unstarted unstarted) _).mono onward.suffix
  | unreminded unstarted none =>
    exact trailed.atTurn unstarted (inOrder.unstarted unstarted) r.root.handle
  | event path event => exact trailed

theorem Performs.trailed (performs : r.Performs services call a w) (inOrder : r.InOrder)
    (trailed : r.root.Trailed r.world.journal) : a.Trailed w.journal := by
  induction performs with
  | begins begins => exact begins.trailed inOrder trailed
  | further performs begins ih => exact begins.trailed ih

theorem begin_trailed (inOrder : r.InOrder) (trailed : r.root.Trailed r.world.journal)
    (unstarted : r.root.started = false) : (begin services r.root r.world).Trails := by
  have turn := trailed.atTurn unstarted (inOrder.unstarted unstarted)
  unfold begin
  simp only
  split
  · next reminder description _ _ =>
    have onward : Onward (fun _ => True) r.world.journal
        (r.world.addReminder services description reminder).2.journal :=
      World.addReminder_onward description reminder r.world
    split
    · trivial
    · next id v added =>
      rw [added] at onward
      exact Execution.enter_trailed _ v ((turn (some id)).mono onward.suffix)
  · exact Execution.enter_trailed _ r.world (turn r.root.handle)

theorem Sound.trailed_perform (reliable : services.Reliable Good) (sound : r.Sound Good)
    (inOrder : r.InOrder) (trailed : r.root.Trailed r.world.journal) (call : Call) :
    (r.perform services call).root.Trailed (r.perform services call).world.journal := by
  have further : Onward (fun _ => True) r.world.journal
      (r.perform services call).world.journal := r.perform_onward services call
  cases call with
  | start =>
    cases started : r.root.started with
    | true =>
      simp only [perform, start, started, if_true]
      exact trailed
    | false =>
      exact sound.start_yields reliable started (begin_trailed inOrder trailed started)
  | dispatch path event =>
    exact sound.dispatch_yields reliable path event
      (Execution.dispatch_trailed trailed event path)
  | push block =>
    have pushed := trailed.extend (List.append_nil _).symm [block.block] fun _ => rfl
    rwa [List.append_nil] at pushed
  | splice blocks =>
    rw [perform, splice, Sequence.splice_eq]
    obtain ⟨front, back, now, behind, spliced⟩ :=
      r.root.toSequence.splice_extends (blocks.map HostBlock.block)
    rw [spliced]
    exact trailed.extend now _ behind
  | requestPause => exact trailed.mono further.suffix
  | releasePause token => exact trailed.mono further.suffix

/-- A run in which nothing fails, with all of it on its trail. -/
structure Trailing (Good : σ → Prop) (r : Run σ) : Prop where
  sound : r.Sound Good
  inOrder : r.InOrder
  trailed : r.root.Trailed r.world.journal

theorem Fresh.trailing {blocks : List HostBlock} (fresh : r.Fresh blocks)
    (succeed : ∀ b ∈ blocks, b.Succeeds) (good : Good r.world.host) : r.Trailing Good where
  sound := fresh.sound succeed good
  inOrder := fresh.inOrder
  trailed := by
    obtain ⟨description, reminder, root⟩ := fresh.root
    rw [root]
    exact .intro (.waiting rfl .given rfl rfl) (List.forall_mem_nil _)

theorem trailing_perform (reliable : services.Reliable Good) (r : Run σ) (call : Call)
    (succeeds : call.Succeeds) (trailing : r.Trailing Good) :
    (r.perform services call).Trailing Good where
  sound := sound_perform reliable r call succeeds trailing.sound
  inOrder := inOrder_perform services r call trailing.inOrder
  trailed := trailing.sound.trailed_perform reliable trailing.inOrder trailing.trailed call

theorem Fresh.trailing_after (reliable : services.Reliable Good) {blocks : List HostBlock}
    (fresh : r.Fresh blocks) (succeed : ∀ b ∈ blocks, b.Succeeds) (good : Good r.world.host)
    (calls : List Call) (all : ∀ call ∈ calls, call.Succeeds) :
    (r.after services calls).Trailing Good :=
  after_induction services (trailing_perform reliable) (fresh.trailing succeed good) calls all

/-- What holds of every execution that is on its trail holds of those in the tree, of those that the
operations within a call leave, and of the threads that they cancel. -/
theorem Trailing.throughout {P : List Entry → Execution → Prop} (trailing : r.Trailing Good)
    (holds : ∀ journal e, Execution.Trailed journal e → P journal e) :
    (∀ path x, r.root.thread? path = some x → P r.world.journal x) ∧
      ∀ call a w, r.Performs services call a w →
        a.Yields services (fun e v => P v.journal e) w ∧
        ∀ t v, a.Cancels services w t v → P v.journal t.execution := by
  constructor
  · intro path x found
    exact holds _ _ (trailing.trailed.thread? found)
  · intro call a w performs
    have trailed := performs.trailed trailing.inOrder trailing.trailed
    exact ⟨trailed.yields.mono fun _ => holds _ _,
      fun t v cancels => holds _ _ (cancels.trailed trailed)⟩

end Run

end Stepwise
