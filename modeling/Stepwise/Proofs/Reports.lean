import Stepwise.Run.Timeline
import Stepwise.Proofs.Monitor.Delivery
import Stepwise.Proofs.Progress

/-!
# What a root reports

The root reports each block that it enters and each block that it leaves, and last its end. With a
host that fails no request these reports tell its position: all blocks behind it were entered and
left, one after the other, and the current one was entered. What its threads do is not reported.
-/

namespace Stepwise

/-- What an entry tells about the root. -/
def Entry.report? : Entry → Option (Mark × Nat)
  | .entered [] index _ => some (.entered, index)
  | .left [] index _ => some (.left, index)
  | .finished [] => some (.finished, 0)
  | _ => none

/-- The reports of the root in a journal, the earliest first. -/
def reportsIn (journal : List Entry) : List (Mark × Nat) := journal.reverse.filterMap Entry.report?

theorem reportsIn_cons (entry : Entry) (journal : List Entry) :
    reportsIn (entry :: journal) = reportsIn journal ++ entry.report?.toList := by
  rw [reportsIn, List.reverse_cons, List.filterMap_append, reportsIn]
  cases h : entry.report? <;> simp [h]

/-- The reports of blocks that are entered and left in this order. -/
def visiting (indices : List Nat) : List (Mark × Nat) :=
  indices.flatMap fun index => [(.entered, index), (.left, index)]

/-- The reports of the first blocks, all of which were left. -/
def milestones (count : Nat) : List (Mark × Nat) := visiting (List.range count)

theorem milestones_succ (count : Nat) :
    milestones (count + 1) = milestones count ++ [(.entered, count), (.left, count)] := by
  rw [milestones, visiting, List.range_succ, List.flatMap_append]
  rfl

theorem count_entered_milestones (count : Nat) :
    (milestones count).countP (·.1 = .entered) = count := by
  induction count with
  | zero => rfl
  | succ count ih =>
    rw [milestones_succ, List.countP_append, ih]
    rfl

theorem count_left_milestones (count : Nat) : (milestones count).countP (·.1 = .left) = count := by
  induction count with
  | zero => rfl
  | succ count ih =>
    rw [milestones_succ, List.countP_append, ih]
    rfl

theorem count_finished_milestones (count : Nat) :
    (milestones count).countP (·.1 = .finished) = 0 := by
  induction count with
  | zero => rfl
  | succ count ih =>
    rw [milestones_succ, List.countP_append, ih]
    rfl

namespace Timeline

/-- What the events report, whatever their labels and times. -/
def marks (t : Timeline) : List (Mark × Nat) := t.map fun event => (event.mark, event.index)

theorem visitsFrom_of_no_left {t : Timeline} (none : ∀ mark ∈ t.marks, mark.1 ≠ .left)
    (entries : Open) : visitsFrom entries t = [] := by
  induction t generalizing entries with
  | nil => rfl
  | cons event rest ih =>
    have not_left : event.mark ≠ .left := none _ List.mem_cons_self
    have rest_none : ∀ mark ∈ marks rest, mark.1 ≠ .left :=
      fun mark mem => none mark (List.mem_cons_of_mem _ mem)
    cases mark : event.mark with
    | entered => simp only [visitsFrom, mark, ih rest_none]
    | left => exact absurd mark not_left
    | finished => simp only [visitsFrom, mark, ih rest_none]

/-- Blocks that were entered and left one after the other are visited in this order, and each once.
-/
theorem visitsFrom_visiting (indices : List Nat) {t : Timeline} {last : List (Mark × Nat)}
    (reported : t.marks = visiting indices ++ last) (none : ∀ mark ∈ last, mark.1 ≠ .left)
    (entries : Open) : (visitsFrom entries t).map (·.index) = indices := by
  induction indices generalizing t entries with
  | nil =>
    have no_left : ∀ mark ∈ t.marks, mark.1 ≠ .left := by
      rw [reported]
      exact none
    rw [visitsFrom_of_no_left no_left]
    rfl
  | cons index indices ih =>
    obtain ⟨entered, further, rfl, is_entered, further_reported⟩ := List.map_eq_cons_iff.mp reported
    obtain ⟨left, rest, rfl, is_left, rest_reported⟩ := List.map_eq_cons_iff.mp further_reported
    obtain ⟨entered_mark, rfl⟩ := Prod.mk.inj is_entered
    obtain ⟨left_mark, same⟩ := Prod.mk.inj is_left
    simp only [visitsFrom, entered_mark, left_mark, same, List.find?_cons, decide_true,
      List.map_cons]
    rw [ih rest_reported]

end Timeline

variable {σ : Type}

theorem World.marks_timeline (time : Int) (w : World σ) :
    (w.timeline time).marks = reportsIn w.journal := by
  have same : (fun entry : Entry => (entry.timed? time).map fun event => (event.mark, event.index)) =
      Entry.report? := by
    funext entry
    cases entry with
    | entered address _ _ => cases address <;> rfl
    | left address _ _ => cases address <;> rfl
    | finished address => cases address <;> rfl
    | _ => rfl
  rw [timeline, Timeline.marks, List.map_filterMap, same, reportsIn]

theorem Entry.IsNote.report? {entry : Entry} (is_note : entry.IsNote (· ≠ [])) :
    entry.report? = none := by
  unfold Entry.report?
  split
  · exact absurd rfl is_note
  · exact absurd rfl is_note
  · exact absurd rfl is_note
  · rfl

/-- The root reports nothing. -/
def quiet (services : Services σ) (reports : List (Mark × Nat)) : Monitor services where
  Fine w _ := reportsIn w.journal = reports
  Failed _ w _ := reportsIn w.journal = reports
  Follows address := address ≠ []
  branch _ n := List.append_ne_nil_of_right_ne_nil _ (List.cons_ne_nil n [])
  fewer same _ := same
  failed_fewer same _ := same
  pause _ same := same
  failed_pause _ same := same
  note is_note same := by
    rw [World.note, reportsIn_cons, is_note.report?, same]
    exact List.append_nil _
  added {w _} label r same := by
    unfold World.addReminder
    generalize services.addReminder label r w.host = answered
    obtain ⟨answer, h⟩ := answered
    cases answer <;> exact (reportsIn_cons _ _).trans ((List.append_nil _).trans same)
  asked {w _ _ call} _ same := by
    unfold World.ask
    generalize call w.host = answered
    obtain ⟨answer, h⟩ := answered
    cases answer <;> exact (reportsIn_cons _ _).trans ((List.append_nil _).trans same)

namespace Sequence

/-- What a sequence has reported after the blocks that it has left. -/
def latest (s : Sequence) : List (Mark × Nat) :=
  if s.finished then [(.finished, 0)] else if s.isRunning then [(.entered, s.cursor)] else []

/-- What a sequence has reported in its position. -/
def reports (s : Sequence) : List (Mark × Nat) := milestones s.cursor ++ s.latest

theorem latest_running {s : Sequence} (running : s.isRunning = true) :
    s.latest = [(.entered, s.cursor)] := by
  simp only [latest, unfinished_of_running running, running, Bool.false_eq_true, if_false, if_true]

theorem not_left_of_latest (s : Sequence) : ∀ mark ∈ s.latest, mark.1 ≠ .left := by
  intro mark mem
  unfold latest at mem
  split at mem
  · rw [List.mem_singleton.mp mem]
    exact nofun
  · split at mem
    · rw [List.mem_singleton.mp mem]
      exact nofun
    · cases mem

theorem count_left_reports (s : Sequence) : s.reports.countP (·.1 = .left) = s.cursor := by
  have none : s.latest.countP (·.1 = .left) = 0 := by
    rw [List.countP_eq_zero]
    intro mark mem
    simpa using s.not_left_of_latest mark mem
  rw [reports, List.countP_append, count_left_milestones, none, Nat.add_zero]

theorem count_entered_reports (s : Sequence) :
    s.reports.countP (·.1 = .entered) = s.cursor + if s.isRunning then 1 else 0 := by
  rw [reports, List.countP_append, count_entered_milestones]
  cases running : s.isRunning with
  | true =>
    rw [latest_running running]
    rfl
  | false =>
    simp only [latest, running, Bool.false_eq_true, if_false]
    split <;> rfl

theorem count_finished_reports (s : Sequence) :
    s.reports.countP (·.1 = .finished) = if s.finished then 1 else 0 := by
  rw [reports, List.countP_append, count_finished_milestones, Nat.zero_add]
  unfold latest
  split
  · rfl
  · split <;> rfl

end Sequence

namespace Execution

/-- The execution is a root, and the journal has the reports of its position. -/
structure Tells (w : World σ) (e : Execution) : Prop where
  root : e.address = []
  threads : allWithin (· ≠ []) e.threads
  reports : reportsIn w.journal = e.reports

/-- What is left of a root tells its position. -/
def KeepsTelling (o : Outcome σ Execution Unit) : Prop :=
  o.Yields fun _ e w => e.Tells w

variable {services : Services σ} {w : World σ} {e : Execution} {b : Block} {rest : List Block}

theorem Tells.not_left (tells : e.Tells w) {entry : Entry} (none : entry.report? = none) :
    e.Tells (w.note entry) where
  root := tells.root
  threads := tells.threads
  reports := by
    rw [World.note, reportsIn_cons, none, tells.reports]
    exact List.append_nil _

/-- A block that leaves a root is reported, and the blocks ahead are entered. -/
theorem leave_tells_of (root : e.address = []) {ahead : List Block}
    (goes_on : ∀ left (v : World σ), reportsIn v.journal = milestones (e.cursor + 1) →
      KeepsTelling (Execution.enter services ⟨e.advance left ahead, []⟩ v))
    (reports : reportsIn w.journal = milestones e.cursor ++ [(.entered, e.cursor)]) :
    KeepsTelling ((b.leave services w).bind
      (fun left => (⟨{ e.toSequence with ahead := left :: ahead }, []⟩ : Execution))
      fun _ left w => Execution.enter services ⟨e.advance left ahead, []⟩ (e.noteLeft left w)) := by
  have before : (quiet services (reportsIn w.journal)).Fine w (b.duties ++ []) := rfl
  refine (b.leave_monitored before).bind_yields fun _ left v same => goes_on left _ ?_
  have same : reportsIn v.journal = reportsIn w.journal := same
  rw [Sequence.noteLeft, World.note, reportsIn_cons, same, reports, root, milestones_succ,
    List.append_assoc]
  rfl

theorem enter_tells (e : Execution) : ∀ (w : World σ), e.address = [] → e.isRunning = true →
    reportsIn w.journal = milestones e.cursor → KeepsTelling (e.enter services w) := by
  induction e using enter_induction with
  | nil e now =>
    intro w root running reports
    rw [enter_end services w now]
    have before : (quiet services (milestones e.cursor)).Fine w (handleDuties e.handle ++ []) :=
      reports
    have removed := Sequence.unregister_monitored { e.toSequence with finished := true } before
    simp only [Sequence.finish, Sequence.unfinished_of_running running, Bool.false_eq_true, if_false]
    refine (removed.bind_yields fun _ line v same => ?_).within_yields
      fun _ line v tells => tells
    obtain ⟨rfl, same⟩ := same
    refine ⟨root, trivial, ?_⟩
    have same : reportsIn v.journal = milestones e.cursor := same
    show reportsIn (.finished e.address :: v.journal) = milestones e.cursor ++ _
    rw [reportsIn_cons, root, same]
    rfl
  | cons e b rest now goes_on starts =>
    intro w root running reports
    have before : (quiet services (milestones e.cursor)).Fine w (b.duties ++ []) := reports
    have registering := b.register_monitored before
    rcases registered : b.register services w with ⟨answer, v⟩
    rw [registered] at registering
    cases answer with
    | error error =>
      rw [enter_refused services now registered]
      trivial
    | ok handle =>
      have inside : ∀ n, (quiet services (milestones e.cursor)).Follows (e.address ++ [n]) :=
        fun n => List.append_ne_nil_of_right_ne_nil _ (List.cons_ne_nil n [])
      rw [enter_block services now registered]
      refine (Block.arrive_monitored (b := { b with handle }) inside
        (fun _ _ _ _ _ => enter_monitored _) registering).bind_yields fun leaves part u fine => ?_
      obtain ⟨arrived, threads⟩ := part
      obtain ⟨same, threads_inside⟩ := fine
      have entered : reportsIn (e.noteEntered arrived u).journal =
          milestones e.cursor ++ [(.entered, e.cursor)] := by
        have same : reportsIn u.journal = milestones e.cursor := same
        rw [Sequence.noteEntered, World.note, reportsIn_cons, root, same]
        rfl
      cases leaves with
      | false =>
        simp only [Bool.false_eq_true, if_false]
        refine ⟨root, threads_inside, ?_⟩
        rw [entered, ← Sequence.latest_running running]
        rfl
      | true =>
        refine leave_tells_of root (fun left x reports => ?_) entered
        exact goes_on left handle x root running reports

theorem leave_tells (root : e.address = []) (running : e.isRunning = true)
    (threads_inside : allWithin (· ≠ []) e.threads)
    {ahead : List Block} (reports : reportsIn w.journal = e.reports) :
    KeepsTelling (e.leave services b ahead w) := by
  have before : (quiet services e.reports).Fine w (threadsDuties e.threads ++ []) := reports
  refine (cancelThreads_monitored threads_inside before).bind_yields
    fun _ _ v same => leave_tells_of root (fun left x reports => ?_) ?_
  · exact enter_tells _ x root running reports
  · rw [← Sequence.latest_running running]
    exact same

/-- A thread of a root has taken an event, which is not reported, and now its group goes on. -/
theorem afterThread_tells (root : e.address = []) (running : e.isRunning = true) (join : Join)
    {before after : List Thread} (t : Thread) {x : Execution} (x_inside : x.Within (· ≠ []))
    (others_inside : allWithin (· ≠ []) (before ++ after))
    (reports : reportsIn w.journal = e.reports) :
    KeepsTelling (e.afterThread services b rest join before after { t with execution := x } w) := by
  unfold afterThread
  split
  · have still : (quiet services e.reports).Fine w (threadsDuties (before ++ after) ++ []) := reports
    refine (join.complete_monitored others_inside still).bind_yields fun ended part v same => ?_
    obtain ⟨join, threads⟩ := part
    obtain ⟨same, threads_inside⟩ := same
    cases ended with
    | false => exact ⟨root, threads_inside, same⟩
    | true =>
      exact leave_tells (e := ⟨{ e.toSequence with
        ahead := { b with activity := .parallel join } :: rest }, threads⟩) root running
        threads_inside same
  · obtain ⟨before_inside, after_inside⟩ := (allWithin_append _ _).mp others_inside
    exact ⟨root, (allWithin_append _ _).mpr ⟨before_inside, x_inside, after_inside⟩, reports⟩

theorem dispatch_tells (tells : e.Tells w) (event : Event) (path : List Nat) :
    KeepsTelling (e.dispatch services event path w) := by
  refine dispatch_cases path (fun notice => tells.not_left rfl) ?here ?thread
  case here =>
    intro b rest running now
    have before : (quiet services e.reports).Fine w (b.duties ++ []) := tells.reports
    refine (b.react_monitored event before).bind_yields fun reaction b v same => ?_
    cases reaction with
    | stay => exact ⟨tells.root, tells.threads, same⟩
    | leave after => exact leave_tells tells.root running tells.threads same
  case thread =>
    intro b rest join before t after further running now group threads less
    have inside := tells.threads
    rw [threads, allWithin_append, allWithin_cons] at inside
    obtain ⟨before_inside, t_inside, after_inside⟩ := inside
    have still : (quiet services e.reports).Fine w (t.execution.duties ++ []) := tells.reports
    refine (t.execution.dispatch_monitored event further t_inside still).bind_yields
      fun _ x v same => ?_
    exact afterThread_tells tells.root running join t same.2
      ((allWithin_append _ _).mpr ⟨before_inside, after_inside⟩) same.1

end Execution

namespace Run

variable {Good : σ → Prop} {services : Services σ} {r : Run σ}

/-- The run is sound, and what its root has reported tells its position. -/
structure Reporting (Good : σ → Prop) (r : Run σ) : Prop where
  sound : r.Sound Good
  tells : r.root.Tells r.world

theorem begin_tells {e : Execution} {w : World σ} (unstarted : e.started = false)
    (unfinished : e.finished = false) (uncancelled : e.cancelled = false) (tells : e.Tells w) :
    Execution.KeepsTelling (begin services e w) := by
  have nothing : e.reports = milestones e.cursor := by
    simp [Sequence.reports, Sequence.latest, Sequence.isRunning, unstarted, unfinished]
  have enters : ∀ (handle : Option Nat) (v : World σ), reportsIn v.journal = reportsIn w.journal →
      Execution.KeepsTelling (Execution.enter services { e with started := true, handle } v) := by
    intro handle v same
    refine Execution.enter_tells _ v tells.root ?_ (same.trans (tells.reports.trans nothing))
    simp [Sequence.isRunning, unfinished, uncancelled]
  unfold begin
  simp only
  split
  · next reminder description _ _ =>
    have before : (quiet services (reportsIn w.journal)).Fine w [] := rfl
    have added := (quiet services (reportsIn w.journal)).added description reminder before
    exact added.elim (fun id v same => enters (some id) v same) fun _ _ _ => trivial
  · exact enters e.handle w rfl

theorem reporting_perform (reliable : services.Reliable Good) (r : Run σ) (call : Call)
    (succeeds : call.Succeeds) (reporting : r.Reporting Good) :
    (r.perform services call).Reporting Good := by
  refine ⟨sound_perform reliable r call succeeds reporting.sound, ?_⟩
  have tells := reporting.tells
  have paused : (quiet services r.root.reports).Fine r.world [] := tells.reports
  cases call with
  | start =>
    cases started : r.root.started with
    | true =>
      simp only [perform, start, started, if_true]
      exact tells
    | false =>
      obtain ⟨unfinished, uncancelled, -⟩ := reporting.sound.unstarted started
      exact reporting.sound.start_yields reliable started
        (begin_tells started unfinished uncancelled tells)
  | dispatch path event =>
    exact reporting.sound.dispatch_yields reliable path event
      (Execution.dispatch_tells tells event path)
  | push block => exact ⟨tells.root, tells.threads, tells.reports⟩
  | splice blocks =>
    rw [perform, splice, Sequence.splice_eq]
    exact ⟨tells.root, tells.threads, tells.reports⟩
  | requestPause =>
    simp only [perform, Run.requestPause]
    exact ((quiet services r.root.reports).requestPause paused).elim
      (fun _ _ same => ⟨tells.root, tells.threads, same⟩)
      fun _ _ same => ⟨tells.root, tells.threads, same⟩
  | releasePause token =>
    simp only [perform, Run.releasePause]
    exact ((quiet services r.root.reports).releasePause token paused).elim
      (fun _ _ same => ⟨tells.root, tells.threads, same⟩)
      fun _ _ same => ⟨tells.root, tells.threads, same⟩

theorem reportsIn_of_makings {journal : List Entry} (makings : ∀ entry ∈ journal, entry.IsMaking) :
    reportsIn journal = [] := by
  induction journal with
  | nil => rfl
  | cons entry journal ih =>
    have nothing : entry.report? = none := by
      have making := makings entry List.mem_cons_self
      cases entry with
      | built _ => rfl
      | opened _ _ => rfl
      | _ => cases making
    rw [reportsIn_cons, nothing, ih fun other mem => makings other (List.mem_cons_of_mem entry mem)]
    rfl

theorem Assembled.reporting {blocks : List HostBlock} (assembled : r.Assembled blocks)
    (succeed : ∀ b ∈ blocks, b.Succeeds) (good : Good r.world.host) : r.Reporting Good := by
  refine ⟨assembled.toFresh.sound succeed good, ?_⟩
  obtain ⟨description, reminder, root⟩ := assembled.root
  refine ⟨?_, ?_, ?_⟩
  · rw [root]
    rfl
  · rw [root]
    trivial
  · rw [reportsIn_of_makings assembled.journal, root]
    rfl

/-- In every state that calls can lead to with a host that fails no request, the root has reported
that its first blocks were entered and left, one after the other, as many as its position tells, and
then that it has finished or that the current one was entered. In every timeline of these reports
each block that was left has been visited once, in order. -/
theorem reports_ordered (reliable : services.Reliable Good) {blocks : List HostBlock}
    (assembled : r.Assembled blocks) (good : Good r.world.host)
    (succeed : ∀ b ∈ blocks, b.Succeeds) (calls : List Call)
    (all : ∀ call ∈ calls, call.Succeeds) :
    let root := (r.after services calls).root
    let reports := reportsIn (r.after services calls).world.journal
    reports = milestones root.cursor ++ (if root.finished then [(.finished, 0)]
      else if root.isRunning then [(.entered, root.cursor)] else []) ∧
    reports.countP (·.1 = .left) = root.cursor ∧
    reports.countP (·.1 = .entered) = root.cursor + (if root.isRunning then 1 else 0) ∧
    reports.countP (·.1 = .finished) = (if root.finished then 1 else 0) ∧
    (∀ time, ((r.after services calls).world.timeline time).marks = reports) ∧
    ∀ t : Timeline, t.marks = reports → t.visits.map (·.index) = List.range root.cursor := by
  have reporting : (r.after services calls).Reporting Good :=
    after_induction services (reporting_perform reliable) (assembled.reporting succeed good) calls all
  have reported := reporting.tells.reports
  simp only [World.marks_timeline, reported]
  generalize (r.after services calls).root.toSequence = root
  exact ⟨rfl, root.count_left_reports, root.count_entered_reports, root.count_finished_reports,
    fun _ => trivial, fun t same => Timeline.visitsFrom_visiting _ same root.not_left_of_latest []⟩

/-- A loop, a wait that is over before it starts and a group that ends with its first thread. -/
def simmering : Run InMemory :=
  .ofWorkflow ⟨"stew", none, some ⟨10, .minutes⟩, [.counted 2 [.task "stir"],
    .sleep 0 .minutes "" false,
    .parallel "either" 1 [[.task "taste"], [.sleep 5 .minutes "rest" true]]]⟩ .empty

theorem reports_ordered_simmering :
    let after := simmering.after InMemory.services [.start, .dispatch [] .done, .dispatch [] .done,
      .push ⟨.task "serve", [("bell", none)]⟩, .dispatch [0] .done]
    let root := after.root
    let reports := reportsIn after.world.journal
    (root.cursor = 7 ∧ root.isRunning = true) ∧
    reports = milestones root.cursor ++ (if root.finished then [(.finished, 0)]
      else if root.isRunning then [(.entered, root.cursor)] else []) ∧
    reports.countP (·.1 = .left) = root.cursor ∧
    reports.countP (·.1 = .entered) = root.cursor + (if root.isRunning then 1 else 0) ∧
    reports.countP (·.1 = .finished) = (if root.finished then 1 else 0) ∧
    (∀ time, (after.world.timeline time).marks = reports) ∧
    ∀ t : Timeline, t.marks = reports → t.visits.map (·.index) = List.range root.cursor := by
  refine ⟨by decide +kernel, reports_ordered InMemory.reliable (assembled_ofWorkflow _ _)
    InMemory.willing_empty ?_ _ ?_⟩
  · intro b mem
    obtain ⟨t, -, rfl⟩ := List.mem_map.mp mem
    exact HostBlock.succeeds_plain t
  · intro call mem
    simp only [List.mem_cons, List.not_mem_nil, or_false] at mem
    rcases mem with rfl | rfl | rfl | rfl | rfl
    · trivial
    · trivial
    · trivial
    · exact List.forall_mem_singleton.mpr rfl
    · trivial

end Run

end Stepwise
