import Stepwise.Proofs.Structured.Delivery
import Stepwise.Proofs.Structured.Spots

/-!
# Runs follow the structured run

The live tree of a run and the structured run of its workflow have the same threads. Each thread has
entered the same templates in the same order and waits at the same one, and it has finished when its
structured run has ended.
-/

namespace Stepwise

variable {σ : Type} {Good : σ → Prop} {services : Services σ}

namespace Execution

/-- The blocks that have been entered, the earliest first. -/
def visited (e : Execution) : List Block := e.behind.reverse ++ e.ahead.head?.toList

/-- The execution has entered the occurrences of the pursuit, in order, and waits where it does or
has finished with it. All blocks that a loop is made into count as the loop. -/
structure Matches (e : Execution) (p : Pursuit Course) : Prop where
  entered : e.visited.map Block.shape = p.entered.map Occurrence.shape
  waits : e.current?.map Block.shape = p.waitsAt.map Occurrence.shape
  finished : e.finished = true ↔ p.now = none

theorem Shows.matches {e : Execution} {p : Pursuit Course} (shows : e.Shows p) : e.Matches p := by
  refine ⟨?_, ?_, shows.finished_iff⟩
  · cases now : p.now with
    | none =>
      have spent := shows
      simp only [Shows, now] at spent
      rw [visited, spent.1.ahead]
      simpa using spent.2
    | some course =>
      have fits := shows.fits now
      obtain ⟨line, threads⟩ := e
      obtain ⟨-, ⟨b, rest, ahead, -, shapes⟩, -⟩ := fits
      simpa only [visited, ahead, List.head?_cons, Option.toList_some] using shapes
  · cases now : p.now with
    | none => simp [Sequence.current?, (shows.spent now).ahead, Pursuit.waitsAt, now]
    | some course =>
      have fits := shows.fits now
      obtain ⟨line, threads⟩ := e
      obtain ⟨-, ⟨b, rest, ahead, stands, -⟩, -⟩ := fits
      simp only [Sequence.current?, ahead, Pursuit.waitsAt, now, List.head?_cons, Option.map_some]
      rw [stands.shape]
      rfl

end Execution

theorem threadsFit_find {threads : List Thread} {strands : List Strand}
    (fits : threadsFit threads strands) (branch : Nat) :
    Option.Rel (fun t s => t.execution.Fits s.entered s.course)
      (threads.find? (·.branch = branch)) (strands.find? (·.branch = branch)) := by
  induction threads generalizing strands with
  | nil =>
    cases strands with
    | nil => exact .none
    | cons s strands => exact False.elim fits
  | cons t threads ih =>
    obtain ⟨number, execution⟩ := t
    cases strands with
    | nil => exact False.elim fits
    | cons s strands =>
      obtain ⟨own, entered, course⟩ := s
      obtain ⟨rfl, fits, others⟩ := fits
      by_cases same : number = branch
      · simp only [List.find?_cons, same, decide_true]
        exact .some fits
      · simp only [List.find?_cons, same, decide_false]
        exact ih others

theorem Execution.Shows.thread? {e : Execution} {p : Pursuit Course} (shows : e.Shows p)
    (path : List Nat) : Option.Rel Execution.Shows (e.thread? path) (p.thread? path) := by
  induction path generalizing e p with
  | nil => exact .some shows
  | cons branch path ih =>
    rw [Execution.thread?_cons, Pursuit.thread?, Pursuit.strands]
    cases now : p.now with
    | none =>
      rw [(shows.spent now).threads]
      exact .none
    | some course =>
      have fits := shows.fits now
      obtain ⟨line, threads⟩ := e
      obtain ⟨-, -, threads_fit⟩ := fits
      have found := threadsFit_find threads_fit branch
      simp only
      generalize threads.find? (·.branch = branch) = t? at found ⊢
      generalize course.halt.strands.find? (·.branch = branch) = s? at found ⊢
      cases found with
      | none => exact .none
      | some fits => exact ih fits

namespace Run

/-- The run stands where the pursuit does. -/
structure Follows (Good : σ → Prop) (p : Pursuit Course) (r : Run σ) : Prop where
  good : Good r.world.host
  shows : r.root.Shows p

theorem follows_start (reliable : services.Reliable Good) (w : Workflow) {host : σ}
    (good : Good host) :
    ((ofWorkflow w host).perform services .start).Follows Good (beginAll [] 0 w.blocks) := by
  -- The root as it is entered, with the number of its own reminder.
  have entered : ∀ (handle : Option Nat) (v : World σ), Good v.host →
      (ofOutcome (Execution.enter services
        { Execution.ofWorkflow w with started := true, handle := handle } v)).2.Follows Good
        (beginAll [] 0 w.blocks) := by
    intro handle v good_v
    have pursues := beginAll_entered reliable w.blocks [] 0 (w.blocks.map Block.ofTemplate)
      (by simp [Block.plan_ofTemplate, Function.comp_def]) (Block.hooksSucceed_ofTemplates w.blocks)
      { (Execution.ofWorkflow w).toSequence with started := true, handle := handle } [] v rfl
      (List.append_nil _).symm good_v
    obtain ⟨e', w', ends, good', shows⟩ := pursues.shows reliable rfl rfl
    have ends : Execution.enter services
        { Execution.ofWorkflow w with started := true, handle := handle } v = ⟨.ok (), e', w'⟩ := ends
    rw [ends]
    exact ⟨good', shows⟩
  have started : (ofWorkflow w host).root.started = false := rfl
  simp only [perform, start, started, Bool.false_eq_true, if_false]
  unfold begin
  simp only
  split
  · next reminder description _ _ =>
    obtain ⟨id, w', added, good'⟩ := World.addReminder_ok (w := (ofWorkflow w host).world)
      reliable.calm description reminder good
    simp only [added]
    exact entered (some id) w' good'
  · exact entered none (ofWorkflow w host).world good

theorem Follows.dispatch (reliable : services.Reliable Good) {p : Pursuit Course} {r : Run σ}
    (follows : r.Follows Good p) (path : List Nat) (event : Event) :
    (r.perform services (.dispatch path event)).Follows Good (p.deliver path event) := by
  cases now : p.now with
  | none =>
    have idle : r.root.isRunning = false := by
      simp [Sequence.isRunning, (follows.shows.spent now).finished]
    simp only [perform, dispatch_of_idle idle, Pursuit.deliver, now]
    exact ⟨follows.good, follows.shows⟩
  | some course =>
    obtain ⟨e', w', delivered, good', shows⟩ := (follows.shows.fits now).dispatch reliable
      (course.delivers reliable) path event follows.good
    simp only [perform, Run.dispatch, delivered, ofOutcome, Pursuit.deliver, now]
    exact ⟨good', shows⟩

theorem Follows.deliver (reliable : services.Reliable Good) {p : Pursuit Course} {r : Run σ}
    (follows : r.Follows Good p) (moves : List (List Nat × Event)) :
    (r.deliver services moves).Follows Good
      (moves.foldl (fun p move => p.deliver move.1 move.2) p) := by
  induction moves generalizing r p with
  | nil => exact follows
  | cons move moves ih => exact ih (follows.dispatch reliable move.1 move.2)

/-- After any events, the live tree has the threads of the structured run. Each of them has entered
the templates that the structured run has, in order, which are steps of the workflow, and waits
where that does; and it has finished exactly if the structured run has ended. -/
theorem refines_structured (reliable : services.Reliable Good) (w : Workflow) {host : σ}
    (good : Good host) (moves : List (List Nat × Event)) (path : List Nat) :
    let run := (ofWorkflow w host).after services
      (.start :: moves.map fun move => .dispatch move.1 move.2)
    Option.Rel Execution.Matches (run.root.thread? path)
        ((Pursuit.follow w.blocks moves).thread? path) ∧
      ∀ thread, (Pursuit.follow w.blocks moves).thread? path = some thread →
        ∀ o ∈ thread.entered, o.In w.blocks := by
  intro run
  have follows : run.Follows Good (Pursuit.follow w.blocks moves) :=
    (follows_start reliable w good).deliver reliable moves
  refine ⟨?_, fun thread found => ?_⟩
  · have shows := follows.shows.thread? path
    generalize run.root.thread? path = e? at shows ⊢
    generalize (Pursuit.follow w.blocks moves).thread? path = p? at shows ⊢
    cases shows with
    | none => exact .none
    | some shows => exact .some shows.matches
  · exact ((Pursuit.follow_standsIn w.blocks moves).thread? found).1

/-- A condition around a group. One of its threads goes through loops of all three kinds. -/
def brewing : Workflow :=
  ⟨"tea", none, some ⟨5, .minutes⟩, [.condition "thirsty?" [.parallel "both" 2 [
    [.asked "another cup?" .whileYes [.counted 2 [.task "pour"]],
      .asked "sweet enough?" .untilYes [.task "add sugar"], .task "serve"],
    [.sleep 3 .minutes "steep" true], [.task "warm milk"]]] []]⟩

/-- The milk is warm. Two cups have been poured, "another cup?" has been answered with yes and with
no, and "sweet enough?" with no and with yes. -/
theorem refines_structured_brewing :
    let moves := [([], .yes), ([2], .done), ([0], .yes), ([0], .done), ([0], .done), ([0], .no),
      ([0], .no), ([0], .done), ([0], .yes)]
    let run := (ofWorkflow brewing InMemory.empty).after InMemory.services
      (.start :: moves.map fun move => .dispatch move.1 move.2)
    let both := [0, 0, 0]
    (((Pursuit.follow brewing.blocks moves).thread? [0]).map fun thread =>
        thread.entered.map (·.spot)) = some (
          [[0, 0], [0, 0, 0, 0], [0, 0, 0, 0, 0, 0], [0, 0, 0, 0], [0, 0, 0, 0, 0, 0], [0, 0, 0, 0],
            [0, 0], [0, 1], [0, 1, 0, 0], [0, 1], [0, 2]].map (both ++ ·)) ∧
      Option.Rel Execution.Matches (run.root.thread? [0])
        ((Pursuit.follow brewing.blocks moves).thread? [0]) ∧
      ∀ thread, (Pursuit.follow brewing.blocks moves).thread? [0] = some thread →
        ∀ o ∈ thread.entered, o.In brewing.blocks :=
  ⟨by decide +kernel, refines_structured InMemory.reliable brewing InMemory.willing_empty _ [0]⟩

end Run

end Stepwise
