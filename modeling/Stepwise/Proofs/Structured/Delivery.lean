import Stepwise.Proofs.Calls
import Stepwise.Proofs.Joining
import Stepwise.Proofs.Structured.Entering

/-!
# Events follow the structured run

An event either leaves the block where a course waits in place, or makes it leave, and then what it
puts after itself is entered before what the course had still to do. So the simulation is proved
where a course waits and carried outwards, stage by stage, by the lemma on what comes later.
-/

namespace Stepwise

variable {σ : Type} {Good : σ → Prop} {services : Services σ}

section Waiting

variable {line : Sequence} {threads : List Thread} {b : Block} {rest later : List Block}
  {s : Standing} {w : World σ}

theorem Block.Stands.shape (stands : b.Stands rest threads s) :
    b.shape = s.halt.occurrence.shape :=
  Block.shape_of_template stands.plan

theorem Outcome.Pursues.of_stay (good : Good w.host) (stands : b.Stands rest threads s)
    (fits : threadsFit threads s.halt.strands) :
    (⟨.ok (), ⟨{ line with ahead := b :: (rest ++ later) }, threads⟩, w⟩ :
      Outcome σ Execution Unit).Pursues services Good line later
      ((Pursuit.stay s).enters s.halt.occurrence) :=
  ⟨[], b, rest, threads, w, rfl, good, stands, fits, congrArg (fun shape => [shape]) stands.shape⟩

/-- An event that does not find a thread. -/
theorem dispatch_passes (running : line.isRunning = true) (now : line.ahead = b :: (rest ++ later))
    (stands : b.Stands rest threads s) (fits : threadsFit threads s.halt.strands) {branch : Nat}
    (nowhere : b.join? = none ∨ findThread branch threads = none) (path : List Nat) (event : Event)
    (good : Good w.host) :
    (Execution.dispatch services event (branch :: path) ⟨line, threads⟩ w).Pursues services Good
      line later ((Pursuit.stay s).enters s.halt.occurrence) := by
  obtain ⟨notice, -, passed⟩ := Execution.dispatch_nowhere (e := ⟨line, threads⟩) services running now
    nowhere event path w
  have same : line = { line with ahead := b :: (rest ++ later) } := by rw [← now]
  rw [passed]
  refine ⟨[], b, rest, threads, w.passOver notice, ?_, good, stands, fits,
    congrArg (fun shape => [shape]) stands.shape⟩
  rw [List.nil_append, ← same]

/-- An event that leaves the current block in place. -/
theorem dispatch_stays (running : line.isRunning = true) (now : line.ahead = b :: (rest ++ later))
    (stands : b.Stands rest threads s) (fits : threadsFit threads s.halt.strands) {event : Event}
    {b' : Block} {w' : World σ} (reacted : b.react services event w = ⟨.ok .stay, b', w'⟩)
    (plan : b'.plan = b.plan) (hooks : b'.hooks = b.hooks) (hosts : b'.Hosts threads)
    (completed : ∀ join, b'.activity = .parallel join → join.completed = s.halt.completed)
    (good : Good w'.host) :
    (Execution.dispatch services event [] ⟨line, threads⟩ w).Pursues services Good line later
      ((Pursuit.stay s).enters s.halt.occurrence) := by
  rw [Execution.dispatch_here (e := ⟨line, threads⟩) running now, reacted]
  refine Outcome.Pursues.of_stay good ⟨plan.trans stands.plan, stands.ahead, hosts, completed, ?_⟩
    fits
  intro c mem
  rcases List.mem_cons.mp mem with rfl | mem
  · intro hook mem_hook
    rw [hooks] at mem_hook
    exact stands.hooks b List.mem_cons_self hook mem_hook
  · exact stands.hooks c (List.mem_cons_of_mem b mem)

/-- An event that makes the current block leave: what it puts after itself is entered. -/
theorem dispatch_leaves (reliable : services.Reliable Good) (running : line.isRunning = true)
    (now : line.ahead = b :: later) (quiet : hooksSucceed threads) {event : Event} {o : Occurrence}
    {after : List Block} {b' : Block} {w' : World σ}
    (reacted : b.react services event w = ⟨.ok (.leave after), b', w'⟩) (good : Good w'.host)
    (succeed : b'.HooksSucceed) (shape : b'.shape = o.shape) {plans : List Block}
    (plan : after.map Block.plan = plans) (hooks : ∀ c ∈ after, c.HooksSucceed)
    {p : Pursuit Standing} (entered : p.Entered services Good plans) :
    (Execution.dispatch services event [] ⟨line, threads⟩ w).Pursues services Good line later
      (p.enters o) := by
  obtain ⟨v, left, good_v⟩ := Execution.leave_ok (e := ⟨line, threads⟩) reliable succeed quiet
    (after ++ later) good
  rw [Execution.dispatch_here (e := ⟨line, threads⟩) running now, reacted]
  have pursues := entered after plan hooks (line.advance b'.ended (after ++ later)) later v running
    rfl good_v
  rw [← left] at pursues
  exact pursues.behind ((Block.shape_ended b').trans shape)

end Waiting

/-- Nothing is left to do where a block waits for an event itself. -/
theorem Block.Stands.alone {b : Block} {rest : List Block} {threads : List Thread} {o : Occurrence}
    (stands : b.Stands rest threads ⟨⟨o, 0, []⟩, []⟩) (fits : threadsFit threads []) :
    rest = [] ∧ threads = [] := by
  refine ⟨List.map_eq_nil_iff.mp stands.ahead, ?_⟩
  cases threads with
  | nil => rfl
  | cons t threads =>
    obtain ⟨branch, execution⟩ := t
    exact False.elim fits

theorem Block.Stands.activity {b : Block} {rest : List Block} {threads : List Thread} {s : Standing}
    (stands : b.Stands rest threads s) :
    b.activity.plan = (Block.ofTemplate s.halt.occurrence.template).activity :=
  congrArg Block.activity stands.plan

/-- A block that waits for an event itself takes none that is meant for a thread. -/
theorem Standing.Delivers.of_here {o : Occurrence} {p : List Nat → Event → Pursuit Standing}
    (single : ∀ join, (Block.ofTemplate o.template).activity ≠ .parallel join)
    (nowhere : ∀ branch path event, p (branch :: path) event = .stay ⟨⟨o, 0, []⟩, []⟩)
    (here : ∀ (line : Sequence) (b : Block) (later : List Block) (event : Event) (w : World σ),
      line.isRunning = true → line.ahead = b :: later → b.Stands [] [] ⟨⟨o, 0, []⟩, []⟩ →
      Good w.host →
      (Execution.dispatch services event [] ⟨line, []⟩ w).Pursues services Good line later
        ((p [] event).enters o)) :
    Standing.Delivers services Good ⟨⟨o, 0, []⟩, []⟩ p := by
  intro line threads b rest later path event w running now stands fits good
  obtain ⟨rfl, rfl⟩ := stands.alone fits
  cases path with
  | nil => exact here line b later event w running now stands good
  | cons branch path =>
    rw [nowhere]
    refine dispatch_passes running now stands fits (Or.inl ?_) path event good
    unfold Block.join?
    split
    · next join activity =>
      have planned := stands.activity
      rw [activity] at planned
      exact absurd planned.symm (single join.plan)
    · rfl

/-- What a loop that asks makes of an event. -/
theorem Block.react_asked {b : Block} {loop : LoopKind} {body : List Template}
    (asked : b.activity = .asked loop body) (services : Services σ) (event : Event) (w : World σ) :
    b.react services event w =
      match loop.another? event with
      | some true => ⟨.ok (.leave (body.map ofTemplate ++ [b.successor (.asked loop body)])),
          { b with handle := none }, w.noteBuilt body⟩
      | some false => ⟨.ok (.leave []), b, w⟩
      | none => ⟨.ok .stay, b, w.passOver (.notApplicable event b.type b.shownText)⟩ := by
  cases event <;> cases loop <;>
    simp [react, asked, answer, LoopKind.continuesOn, LoopKind.another?]

section Stages

variable (reliable : services.Reliable Good) {o : Occurrence}
include reliable

theorem task_delivers {text : String} (kind : o.template.kind = .task text) :
    ((Stage.task text).standing o).Delivers services Good fun path event =>
      ((Stage.task text).deliver o path event).map (Stage.standing o) := by
  refine .of_here ?_ (fun branch path event => by cases event <;> rfl) ?_
  · rw [Block.ofTemplate, kind]
    rintro _ ⟨⟩
  intro line b later event w running now stands good
  have activity := stands.activity
  rw [Block.ofTemplate, kind] at activity
  have activity := Activity.eq_task_of_plan activity
  obtain ⟨id, image, reminder, handle, hooks, label, _⟩ := b
  cases activity
  cases event with
  | done =>
    exact dispatch_leaves reliable running now (show hooksSucceed [] from trivial) rfl good
      (stands.hooks _ List.mem_cons_self) stands.shape rfl (List.forall_mem_nil _) .ended
  | _ =>
    exact dispatch_stays running now stands trivial rfl rfl rfl rfl (by rintro _ ⟨⟩) good

theorem question_delivers {text : String} {onYes onNo : List Template}
    (kind : o.template.kind = .condition text onYes onNo) :
    ((Stage.question text onYes onNo).standing o).Delivers services Good fun path event =>
      ((Stage.question text onYes onNo).deliver o path event).map (Stage.standing o) := by
  refine .of_here ?_ (fun branch path event => by cases event <;> rfl) ?_
  · rw [Block.ofTemplate, kind]
    rintro _ ⟨⟩
  intro line b later event w running now stands good
  have activity := stands.activity
  rw [Block.ofTemplate, kind] at activity
  have activity := Activity.eq_condition_of_plan activity
  obtain ⟨id, image, reminder, handle, hooks, label, _⟩ := b
  cases activity
  have succeed := stands.hooks _ List.mem_cons_self
  -- The blocks of the branch that is chosen come next, whatever reminder is handed on to them.
  have chosen : ∀ (child : Nat) (branch : List Template),
      (⟨id, image, reminder, handle, hooks, label, .condition onYes onNo⟩ : Block).react services
          event w =
        (⟨id, image, reminder, handle, hooks, label, .condition onYes onNo⟩ : Block).choose branch w →
      (Execution.dispatch services event [] ⟨line, []⟩ w).Pursues services Good line later
        ((((beginAll (o.spot ++ [child]) 0 branch).within (.branch text onYes onNo) .ended).map
          (Stage.standing o)).enters o) := by
    intro child branch reacted
    rw [Block.choose_eq] at reacted
    refine dispatch_leaves reliable running now (show hooksSucceed [] from trivial) reacted good ?_
      ((Block.handOn_shape _ _).trans stands.shape) ?_
      (Block.handOn_hooksSucceed (Block.hooksSucceed_ofTemplates branch))
      ((beginAll_entered reliable branch (o.spot ++ [child]) 0).within
        (Stage.standing_branch o text onYes onNo) .ended)
    · intro hook mem
      rw [Block.handOn_hooks] at mem
      exact succeed hook mem
    · rw [Block.handOn_plan, List.append_nil, List.map_map]
      exact List.map_congr_left fun t _ => Block.plan_ofTemplate t
  cases event with
  | yes => exact chosen 0 onYes rfl
  | no => exact chosen 1 onNo rfl
  | _ => exact dispatch_stays running now stands trivial rfl rfl rfl rfl (by rintro _ ⟨⟩) good

/-- A loop that asks is a waiting block again after each pass. -/
theorem asks_entered {text : String} {loop : LoopKind} {body : List Template}
    (kind : o.template.kind = .asked text loop body) :
    ((⟨[o], some (.asks text loop body)⟩ : Pursuit (Stage (.asked text loop body))).map
      (Stage.standing o)).Entered services Good [Block.ofTemplate o.template] := by
  refine .of_waits reliable o ?_
  rw [Block.ofTemplate, kind]
  trivial

theorem asks_delivers {text : String} {loop : LoopKind} {body : List Template}
    (kind : o.template.kind = .asked text loop body) :
    ((Stage.asks text loop body).standing o).Delivers services Good fun path event =>
      ((Stage.asks text loop body).deliver o path event).map (Stage.standing o) := by
  refine .of_here ?_ (fun branch path event => by cases event <;> rfl) ?_
  · rw [Block.ofTemplate, kind]
    rintro _ ⟨⟩
  intro line b later event w running now stands good
  have activity := stands.activity
  rw [Block.ofTemplate, kind] at activity
  have activity := Activity.eq_asked_of_plan activity
  have succeed := stands.hooks _ List.mem_cons_self
  have reacted := b.react_asked activity services event w
  unfold Stage.deliver
  cases answered : loop.another? event with
  | none =>
    rw [answered] at reacted
    refine dispatch_stays running now stands trivial reacted rfl rfl ?_ ?_ good
    · rw [Block.Hosts, activity]
    · rw [activity]
      rintro _ ⟨⟩
  | some more =>
    cases more with
    | true =>
      rw [answered] at reacted
      refine dispatch_leaves reliable running now (show hooksSucceed [] from trivial) reacted good
        succeed stands.shape ?_ (Block.answer_hooksSucceed loop body)
        ((beginAll_entered reliable body (o.spot ++ [0]) 0).within
          (Stage.standing_round o text loop body) (asks_entered reliable kind))
      obtain ⟨id, image, reminder, handle, hooks, label, _⟩ := b
      cases activity
      have next : Block.plan (Block.successor
          ⟨id, image, reminder, handle, hooks, label, .asked loop body⟩ (.asked loop body)) =
          Block.ofTemplate o.template := stands.plan
      rw [List.map_append, List.map_map, List.map_singleton, next]
      congr 1
      exact List.map_congr_left fun t _ => Block.plan_ofTemplate t
    | false =>
      rw [answered] at reacted
      exact dispatch_leaves reliable running now (show hooksSucceed [] from trivial) reacted good
        succeed stands.shape rfl (List.forall_mem_nil _) .ended

theorem wait_delivers {value : Int64} {unit : TimeUnit} {text : String} {silent : Bool}
    (kind : o.template.kind = .sleep value unit text silent) :
    ((Stage.wait value unit text silent).standing o).Delivers services Good fun path event =>
      ((Stage.wait value unit text silent).deliver o path event).map (Stage.standing o) := by
  refine .of_here ?_ (fun branch path event => by cases event <;> rfl) ?_
  · rw [Block.ofTemplate, kind]
    rintro _ ⟨⟩
  intro line b later event w running now stands good
  have activity := stands.activity
  rw [Block.ofTemplate, kind] at activity
  obtain ⟨s, activity, s_plan⟩ := Activity.eq_sleep_of_plan activity
  obtain ⟨id, image, reminder, handle, hooks, label, _⟩ := b
  cases activity
  have succeed := stands.hooks _ List.mem_cons_self
  have hosts := stands.hosts
  have spent : ∀ w' : World σ, Good w'.host →
      (⟨id, image, reminder, handle, hooks, label, .sleep s⟩ : Block).react services event w =
        ⟨.ok (.leave []), ⟨id, image, reminder, handle, hooks, label,
          .sleep { s with remaining := .zero }⟩, w'⟩ →
      (Execution.dispatch services event [] ⟨line, []⟩ w).Pursues services Good line later
        ((Pursuit.map (Stage.standing o) (.ended : Pursuit (Stage
          (.sleep value unit text silent)))).enters o) := fun w' good' reacted =>
    dispatch_leaves reliable running now (show hooksSucceed [] from trivial) reacted good' succeed
      stands.shape rfl (List.forall_mem_nil _) .ended
  cases event with
  | elapsed => exact spent w good rfl
  | skip =>
    obtain ⟨w', forced, good'⟩ := World.ask_ok reliable.forceFinish .forceFinish good
    refine spent w' good' ?_
    simp only [Block.react, World.forceFinish, forced]
  | tick remaining =>
    exact dispatch_stays running now stands trivial rfl rfl rfl hosts (by rintro _ ⟨⟩) good
  | _ => exact dispatch_stays running now stands trivial rfl rfl rfl hosts (by rintro _ ⟨⟩) good

end Stages

/-- An execution takes an event as the course that it fits does. -/
theorem Execution.Fits.dispatch (reliable : services.Reliable Good) {e : Execution}
    {entered : List Occurrence} {course : Course} (fits : e.Fits entered course)
    (delivers : course.standing.Delivers services Good fun path event =>
      (course.deliver path event).map Course.standing)
    (path : List Nat) (event : Event) {w : World σ} (good : Good w.host) :
    ∃ e' w', e.dispatch services event path w = ⟨.ok (), e', w'⟩ ∧ Good w'.host ∧
      e'.Shows
        ⟨entered ++ (course.deliver path event).entered, (course.deliver path event).now⟩ := by
  obtain ⟨line, threads⟩ := e
  obtain ⟨running, ⟨b, rest, now, stands, visited⟩, threads_fit⟩ := fits
  rw [← List.append_nil rest] at now
  have pursues := delivers line threads b rest [] path event w running now stands threads_fit good
  refine Outcome.Pursues.shows (p := (course.deliver path event).enters course.halt.occurrence)
    reliable pursues running ?_
  rw [List.map_append, List.map_singleton, stands.shape] at visited
  rw [Pursuit.enters, List.map_append, ← visited, List.map_cons, List.append_assoc]
  rfl

/-- An event for a branch of a group reaches the thread of that branch, if there is one, and the
threads then fit the strands that are left. -/
def StrandsDeliver (services : Services σ) (Good : σ → Prop) (strands : List Strand) : Prop :=
  ∀ (threads : List Thread) (branch : Nat) (path : List Nat) (event : Event) (w : World σ),
    threadsFit threads strands → Good w.host →
    (findThread branch threads = none ∧ deliverTo branch path event strands = (0, strands)) ∨
    ∃ before t after x w', findThread branch threads = some (before, t, after) ∧
      t.execution.dispatch services event path w = ⟨.ok (), x, w'⟩ ∧ Good w'.host ∧
      ((x.finished = false ∧ (deliverTo branch path event strands).1 = 0 ∧
          threadsFit (before ++ { t with execution := x } :: after)
            (deliverTo branch path event strands).2) ∨
        (x.finished = true ∧ (deliverTo branch path event strands).1 = 1 ∧
          threadsFit (before ++ after) (deliverTo branch path event strands).2))

theorem StrandsDeliver.nil : StrandsDeliver services Good [] := by
  intro threads branch path event w fits good
  cases threads with
  | nil => exact Or.inl ⟨rfl, rfl⟩
  | cons t threads =>
    obtain ⟨own, execution⟩ := t
    exact False.elim fits

theorem StrandsDeliver.cons (reliable : services.Reliable Good) {own : Nat}
    {entered : List Occurrence} {course : Course} {strands : List Strand}
    (delivers : course.standing.Delivers services Good fun path event =>
      (course.deliver path event).map Course.standing)
    (others : StrandsDeliver services Good strands) :
    StrandsDeliver services Good (⟨own, entered, course⟩ :: strands) := by
  intro threads branch path event w fits good
  cases threads with
  | nil => exact False.elim fits
  | cons t threads =>
    obtain ⟨number, execution⟩ := t
    obtain ⟨rfl, fits, rest_fit⟩ := fits
    by_cases same : number = branch
    · obtain ⟨x, w', delivered, good', shows⟩ := fits.dispatch reliable delivers path event good
      refine Or.inr ⟨[], ⟨number, execution⟩, threads, x, w', ?_, delivered, good', ?_⟩
      · simp only [findThread, same, if_true]
      · simp only [deliverTo, same, if_true]
        cases now : (course.deliver path event).now with
        | some next => exact Or.inl ⟨(shows.fits now).unfinished, rfl, rfl, shows.fits now, rest_fit⟩
        | none => exact Or.inr ⟨(shows.spent now).finished, rfl, rest_fit⟩
    · rcases others threads branch path event w rest_fit good with
        ⟨nowhere, nothing⟩ | ⟨before, t, after, x, w', found, delivered, good', outcome⟩
      · refine Or.inl ⟨?_, ?_⟩
        · simp only [findThread, same, if_false, nowhere, Option.map_none]
        · simp only [deliverTo, same, if_false, nothing]
      · refine Or.inr ⟨⟨number, execution⟩ :: before, t, after, x, w', ?_, delivered, good', ?_⟩
        · simp only [findThread, same, if_false, found, Option.map_some]
        · simp only [deliverTo, same, if_false]
          rcases outcome with ⟨unfinished, none, fit⟩ | ⟨finished, one, fit⟩
          · exact Or.inl ⟨unfinished, none, rfl, fits, fit⟩
          · exact Or.inr ⟨finished, one, rfl, fits, fit⟩

section Group

variable {line : Sequence} {b : Block} {later : List Block} {o : Occurrence} {join : Join}
  {strands strands' : List Strand} {before after : List Thread} {t : Thread} {x : Execution}
  {w : World σ}

/-- The thread that took the event goes on. -/
theorem group_runs (now : line.ahead = b :: later)
    (stands : b.Stands [] (before ++ t :: after) ⟨⟨o, join.completed, strands⟩, []⟩)
    (activity : b.activity = .parallel join) (unfinished : x.finished = false)
    (fit : threadsFit (before ++ { t with execution := x } :: after) strands') (good : Good w.host) :
    (Execution.afterThread services b later join before after { t with execution := x }
      ⟨line, before ++ t :: after⟩ w).Pursues services Good line later
      ((Pursuit.stay ⟨⟨o, join.completed, strands'⟩, []⟩).enters o) := by
  have is_open : join.Open (before ++ t :: after) := by
    simpa only [Block.Hosts, activity] using stands.hosts
  have hosts : b.Hosts (before ++ { t with execution := x } :: after) := by
    simpa only [Block.Hosts, activity] using is_open.replace x
  rw [Execution.afterThread_runs unfinished]
  refine ⟨[], b, [], _, w, ?_, good, ⟨stands.plan, rfl, hosts, stands.completed, stands.hooks⟩, fit,
    congrArg (fun shape => [shape]) stands.shape⟩
  rw [List.nil_append, List.nil_append, ← now]

/-- The thread that took the event has finished, and the group waits for others. -/
theorem group_counts
    (stands : b.Stands [] (before ++ t :: after) ⟨⟨o, join.completed, strands⟩, []⟩)
    (activity : b.activity = .parallel join) (finished : x.finished = true)
    (more : join.completed + 1 ≠ join.target) (fit : threadsFit (before ++ after) strands')
    (good : Good w.host) :
    (Execution.afterThread services b later join before after { t with execution := x }
      ⟨line, before ++ t :: after⟩ w).Pursues services Good line later
      ((Pursuit.stay ⟨⟨o, join.completed + 1, strands'⟩, []⟩).enters o) := by
  have is_open : join.Open (before ++ t :: after) := by
    simpa only [Block.Hosts, activity] using stands.hosts
  have same_plan := Block.plan_counted activity { join with completed := join.completed + 1 } rfl
    b.handle
  rw [Execution.afterThread_stays finished is_open more]
  refine ⟨[], _, [], _, w, rfl, good, ⟨same_plan.trans stands.plan, rfl, ?_, ?_, ?_⟩, fit, ?_⟩
  · exact is_open.remove more
  · rintro j ⟨⟩
    rfl
  · intro c mem
    rw [List.mem_singleton.mp mem]
    exact stands.hooks b List.mem_cons_self
  · exact congrArg (fun shape => [shape]) ((Block.shape_eq_of_plan same_plan).trans stands.shape)

/-- The thread that took the event is the last one that the group needs. -/
theorem group_ends (reliable : services.Reliable Good)
    (stands : b.Stands [] (before ++ t :: after) ⟨⟨o, join.completed, strands⟩, []⟩)
    (activity : b.activity = .parallel join) (finished : x.finished = true)
    (enough : join.completed + 1 = join.target) (quiet : hooksSucceed (before ++ t :: after))
    (good : Good w.host) :
    (Execution.afterThread services b later join before after { t with execution := x }
      ⟨line, before ++ t :: after⟩ w).Pursues services Good line later ⟨[o], none⟩ := by
  have is_open : join.Open (before ++ t :: after) := by
    simpa only [Block.Hosts, activity] using stands.hosts
  rw [hooksSucceed_append, hooksSucceed_cons] at quiet
  have others := (hooksSucceed_append _ _).mpr ⟨quiet.1, quiet.2.2⟩
  obtain ⟨v, ended, good_v⟩ := Execution.afterThread_ends (e := ⟨line, before ++ t :: after⟩)
    reliable later finished is_open enough (stands.hooks b List.mem_cons_self) others good
  refine .of_left ended good_v (Eq.trans ?_ stands.shape)
  rw [Execution.endedGroup, Block.shape_ended]
  simp only [Block.shape, activity]
  rfl

end Group

theorem group_delivers (reliable : services.Reliable Good) {o : Occurrence} {text : String}
    {choose : UInt64} {branches : List (List Template)} {completed : Nat} {strands : List Strand}
    (kind : o.template.kind = .parallel text choose branches)
    (strands_deliver : StrandsDeliver services Good strands) :
    ((Stage.group text choose branches completed strands).standing o).Delivers services Good
      fun path event => ((Stage.group text choose branches completed strands).deliver o path event).map
        (Stage.standing o) := by
  intro line threads b rest later path event w running now stands fits good
  obtain rfl : rest = [] := List.map_eq_nil_iff.mp stands.ahead
  obtain ⟨join, activity, -, target⟩ := Block.join_of_plan stands.plan kind
  obtain rfl : join.completed = completed := stands.completed join activity
  have short : join.completed < join.target := by
    have hosts := stands.hosts
    simp only [Block.Hosts, activity] at hosts
    exact hosts.short
  have group : b.join? = some join := by simp only [Block.join?, activity]
  cases path with
  | nil =>
    have stays : b.react services event w =
        ⟨.ok .stay, b, w.passOver (.notApplicable event b.type b.shownText)⟩ := by
      cases event <;> simp only [Block.react, activity]
    exact dispatch_stays running now stands fits stays rfl rfl stands.hosts stands.completed good
  | cons branch path =>
    have below : ¬ joinTarget choose.toNat branches.length ≤ join.completed + 0 := by omega
    simp only [Stage.deliver]
    rcases strands_deliver threads branch path event w fits good with
      ⟨nowhere, nothing⟩ | ⟨before, t, after, x, w', found, delivered, good', outcome⟩
    · simp only [nothing, regroup, if_neg below]
      exact dispatch_passes running now stands fits (Or.inr nowhere) path event good
    · obtain ⟨rfl, -⟩ := findThread_some found
      rw [Execution.dispatch_thread (e := ⟨line, before ++ t :: after⟩) running now group found,
        delivered]
      rcases outcome with ⟨unfinished, none, fit⟩ | ⟨finished, one, fit⟩
      · simp only [none, regroup, if_neg below]
        exact group_runs now stands activity unfinished fit good'
      · simp only [one, regroup]
        by_cases enough : join.completed + 1 = join.target
        · have reached : joinTarget choose.toNat branches.length ≤ join.completed + 1 := by omega
          rw [if_pos reached]
          exact group_ends reliable stands activity finished enough (threadsFit_hooks fits) good'
        · have open_still : ¬ joinTarget choose.toNat branches.length ≤ join.completed + 1 := by
            omega
          rw [if_neg open_still]
          exact group_counts stands activity finished enough fit good'

mutual

theorem Stage.delivers (reliable : services.Reliable Good) : ∀ {kind : TemplateKind}
    (stage : Stage kind) (o : Occurrence), o.template.kind = kind →
    (stage.standing o).Delivers services Good fun path event =>
      (stage.deliver o path event).map (Stage.standing o)
  | _, .task _, _, same => task_delivers reliable same
  | _, .question _ _ _, _, same => question_delivers reliable same
  | _, .branch text onYes onNo course, o, _ =>
    (course.delivers reliable).within (Stage.standing_branch o text onYes onNo) .ended
  | _, .pass times body left course, o, same =>
    (course.delivers reliable).within (Stage.standing_pass o times body left)
      (passes_entered reliable same (beginAll_entered reliable body (o.spot ++ [0]) 0) left left
        (Int.toNat_natCast left))
  | _, .asks _ _ _, _, same => asks_delivers reliable same
  | _, .round text loop body course, o, same =>
    (course.delivers reliable).within (Stage.standing_round o text loop body)
      (asks_entered reliable same)
  | _, .group _ _ _ _ strands, _, same =>
    group_delivers reliable same (strands_deliver reliable strands)
  | _, .wait _ _ _ _, _, same => wait_delivers reliable same

theorem Course.delivers (reliable : services.Reliable Good) : ∀ course : Course,
    course.standing.Delivers services Good fun path event =>
      (course.deliver path event).map Course.standing
  | ⟨place, index, t, stage, rest⟩ =>
    (stage.delivers reliable ⟨place ++ [index], t⟩ rfl).within
      (fun stage => Course.standing_mk place index t stage rest)
      (beginAll_entered reliable rest place (index + 1))

theorem strands_deliver (reliable : services.Reliable Good) : ∀ strands : List Strand,
    StrandsDeliver services Good strands
  | [] => .nil
  | ⟨_, _, course⟩ :: strands =>
    .cons reliable (course.delivers reliable) (strands_deliver reliable strands)

end

end Stepwise
