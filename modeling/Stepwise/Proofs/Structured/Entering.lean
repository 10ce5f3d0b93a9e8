import Stepwise.Proofs.Structured.Standing

/-!
# Entering follows the structured run

Entering the blocks of templates pursues what beginning the templates says. The proof is by
recursion on the templates; the passes of a counted loop are an induction of their own, and so are
the branches of a group.
-/

namespace Stepwise

variable {σ : Type} {Good : σ → Prop} {services : Services σ}

namespace Activity

variable {a : Activity}

theorem eq_task_of_plan (h : a.plan = .task) : a = .task := by
  cases a with
  | task => rfl
  | _ => cases h

theorem eq_condition_of_plan {onYes onNo : List Template} (h : a.plan = .condition onYes onNo) :
    a = .condition onYes onNo := by
  cases a with
  | condition => exact h
  | _ => cases h

theorem eq_asked_of_plan {loop : LoopKind} {body : List Template} (h : a.plan = .asked loop body) :
    a = .asked loop body := by
  cases a with
  | asked => exact h
  | _ => cases h

theorem eq_counted_of_plan {remaining : Int} {body : List Template}
    (h : a.plan = .counted remaining false body) :
    ∃ entered, a = .counted remaining entered body := by
  cases a with
  | counted remaining' entered body' =>
    obtain ⟨rfl, -, rfl⟩ := Activity.counted.inj h
    exact ⟨entered, rfl⟩
  | _ => cases h

theorem eq_parallel_of_plan {j : Join} (h : a.plan = .parallel j) :
    ∃ join, a = .parallel join ∧ join.plan = j := by
  cases a with
  | parallel join => exact ⟨join, rfl, Activity.parallel.inj h⟩
  | _ => cases h

theorem eq_sleep_of_plan {s : Sleep} (h : a.plan = .sleep s) :
    ∃ s', a = .sleep s' ∧ s'.plan = s := by
  cases a with
  | sleep s' => exact ⟨s', rfl, Activity.sleep.inj h⟩
  | _ => cases h

end Activity

namespace Block

variable {b : Block}

theorem shape_of_template {t : Template} (plan : b.plan = ofTemplate t) :
    b.shape = (ofTemplate t).shape := by
  refine shape_eq_of_plan ?_
  rw [plan, plan_ofTemplate]

theorem Waits.of_plan {c : Block} (waits : c.Waits) (plan : b.plan = c.plan) : b.Waits := by
  obtain ⟨id, image, reminder, handle, hooks, text, activity⟩ := b
  obtain ⟨id', image', reminder', handle', hooks', text', activity'⟩ := c
  have same : activity.plan = activity'.plan := congrArg Block.activity plan
  cases activity <;> cases activity' <;> simp_all [Waits, Activity.plan, Sleep.plan, Sleep.fresh]

end Block

theorem Pursuit.Entered.of_block {plan : Block} {p : Pursuit Standing}
    (entered : ∀ b : Block, b.plan = plan → b.HooksSucceed →
      ∀ (line : Sequence) (later : List Block) (w : World σ), line.isRunning = true →
        line.ahead = b :: later → Good w.host →
        (Execution.enter services ⟨line, []⟩ w).Pursues services Good line later p) :
    p.Entered services Good [plan] := by
  intro blocks plans hooks line later w running now good
  obtain ⟨b, rest, rfl, same, none⟩ := List.map_eq_cons_iff.mp plans
  obtain rfl := List.map_eq_nil_iff.mp none
  exact entered b same (hooks b List.mem_cons_self) line later w running now good

/-- A block leaves, and nothing comes before the blocks that follow. -/
theorem Outcome.Pursues.of_left {line : Sequence} {left : Block} {later : List Block}
    {o : Occurrence}
    {outcome : Outcome σ Execution Unit} {w : World σ}
    (entering : outcome = Execution.enter services ⟨line.advance left later, []⟩ w)
    (good : Good w.host) (same : left.shape = o.shape) :
    outcome.Pursues services Good line later ⟨[o], none⟩ :=
  ⟨[left], w, entering, good, congrArg (fun shape => [shape]) same⟩

/-- A block that waits for an event is where the sequence stands. -/
theorem Pursuit.Entered.of_waits (reliable : services.Reliable Good) (o : Occurrence)
    (waits : (Block.ofTemplate o.template).Waits) :
    (⟨[o], some ⟨⟨o, 0, []⟩, []⟩⟩ : Pursuit Standing).Entered services Good
      [Block.ofTemplate o.template] := by
  refine .of_block fun b plan hooks line later w running now good => ?_
  have b_waits : b.Waits := waits.of_plan (by rw [plan, Block.plan_ofTemplate])
  obtain ⟨b', w', entered, good', same, same_hooks⟩ :=
    Execution.enter_waits (e := ⟨line, []⟩) reliable now b_waits good
  refine ⟨[], b', [], [], w', entered, good', ?_, trivial, ?_⟩
  · refine ⟨same.trans plan, rfl, b_waits.hosts same, fun join activity => ?_, ?_⟩
    · have impossible : b'.Waits := b_waits.of_plan same
      simp only [Block.Waits, activity] at impossible
    · intro c mem hook mem_hook
      rw [List.mem_singleton.mp mem, same_hooks] at mem_hook
      exact hooks hook mem_hook
  · exact congrArg (fun shape => [shape]) (Block.shape_of_template (same.trans plan))

/-- A wait that is over before it starts. -/
theorem Pursuit.Entered.of_elapsed (reliable : services.Reliable Good) (o : Occurrence)
    {value : Int64} {unit : TimeUnit} {text : String} {silent : Bool}
    (kind : o.template.kind = .sleep value unit text silent) (spent : ¬ 0 < value) :
    (⟨[o], none⟩ : Pursuit Standing).Entered services Good [Block.ofTemplate o.template] := by
  refine .of_block fun b plan hooks line later w running now good => ?_
  have activity : b.activity.plan = .sleep (.fresh value unit silent) := by
    have same : b.activity.plan = (Block.ofTemplate o.template).activity :=
      congrArg Block.activity plan
    rw [same, Block.ofTemplate, kind]
  obtain ⟨s, activity, s_plan⟩ := Activity.eq_sleep_of_plan activity
  have s_value : s.value = value := congrArg Sleep.value s_plan
  obtain ⟨left, w', entered, good', same⟩ :=
    Execution.enter_elapsed (e := ⟨line, []⟩) reliable.calm now activity (s_value ▸ spent) hooks good
  exact .of_left entered good' (same.trans (Block.shape_of_template plan))

theorem Template.shape_withPasses {t : Template} {times : Int64} {body : List Template}
    (kind : t.kind = .counted times body) (remaining : Int) :
    (t.withPasses remaining body).shape = (Block.ofTemplate t).shape := by
  obtain ⟨_, id, image, reminder⟩ := t
  cases kind
  rfl

theorem passes_entered (reliable : services.Reliable Good) {o : Occurrence} {times : Int64}
    {body : List Template} (kind : o.template.kind = .counted times body) {pass : Pursuit Course}
    (pass_entered : (pass.map Course.standing).Entered services Good (body.map Block.ofTemplate))
    (left : Nat) (remaining : Int) (same : remaining.toNat = left) :
    ((passes o times body pass left).map (Stage.standing o)).Entered services Good
      [o.template.withPasses remaining body] := by
  induction left generalizing remaining with
  | zero =>
    refine .of_block fun b plan hooks line later w running now good => ?_
    obtain ⟨before, activity⟩ := Activity.eq_counted_of_plan (congrArg Block.activity plan)
    obtain ⟨left, w', entered, good', shape⟩ := Execution.enter_exhausted (e := ⟨line, []⟩)
      reliable.calm now activity (by omega) hooks good
    refine .of_left entered good' (shape.trans ?_)
    rw [← Block.shape_plan, plan, Template.shape_withPasses kind]
    rfl
  | succ n ih =>
    refine .of_block fun b plan hooks line later w running now good => ?_
    obtain ⟨before, activity⟩ := Activity.eq_counted_of_plan (congrArg Block.activity plan)
    obtain ⟨left, next, w', entered, good', shape, next_hooks, -, next_plan⟩ :=
      Execution.enter_pass (e := ⟨line, []⟩) reliable.calm now activity (by omega) hooks good
    have count : remaining - 1 = n := by omega
    have next_plan : next.plan = o.template.withPasses n body := by
      rw [next_plan, plan, count]
      rfl
    -- The body comes next, and then the loop with one pass less.
    have inner := pass_entered.within (Stage.standing_pass o times body n)
      (ih n (Int.toNat_natCast n))
    have pursues := inner (body.map Block.ofTemplate ++ [next])
      (by simp [Block.plan_ofTemplate, next_plan, Function.comp_def]) (fun c mem => by
        rcases List.mem_append.mp mem with mem | mem
        · exact Block.hooksSucceed_ofTemplates body c mem
        · rw [List.mem_singleton.mp mem, Block.HooksSucceed, next_hooks]
          exact List.forall_mem_nil _)
      (line.advance left (body.map Block.ofTemplate ++ next :: later)) later w' running
      (by rw [List.append_assoc]; rfl) good'
    rw [entered, passes, Pursuit.map_enters]
    refine Outcome.Pursues.behind pursues (shape.trans ?_)
    rw [← Block.shape_plan, plan, Template.shape_withPasses kind]
    rfl

/-- The execution has entered what the pursuit has, and stands where it does or has ended with it.
-/
def Execution.Shows (e : Execution) (p : Pursuit Course) : Prop :=
  match p.now with
  | none => e.Over ∧ e.behind.reverse.map Block.shape = p.entered.map Occurrence.shape
  | some course => e.Fits p.entered course

theorem Execution.Shows.fits {e : Execution} {p : Pursuit Course} {course : Course}
    (shows : e.Shows p) (now : p.now = some course) : e.Fits p.entered course := by
  simpa only [Shows, now] using shows

theorem Execution.Shows.spent {e : Execution} {p : Pursuit Course} (shows : e.Shows p)
    (now : p.now = none) : e.Over := by
  simp only [Shows, now] at shows
  exact shows.1

theorem Execution.Fits.unfinished {e : Execution} {entered : List Occurrence} {course : Course}
    (fits : e.Fits entered course) : e.finished = false := by
  obtain ⟨line, threads⟩ := e
  exact Sequence.unfinished_of_running fits.1

theorem Execution.Shows.finished_iff {e : Execution} {p : Pursuit Course} (shows : e.Shows p) :
    e.finished = true ↔ p.now = none := by
  cases now : p.now with
  | none => exact ⟨fun _ => rfl, fun _ => (shows.spent now).finished⟩
  | some course =>
    rw [(shows.fits now).unfinished]
    constructor <;> rintro ⟨⟩

/-- With nothing to come later, a call ends with an answer. -/
theorem Outcome.Pursues.shows (reliable : services.Reliable Good) {line : Sequence}
    {outcome : Outcome σ Execution Unit} {p : Pursuit Course}
    (pursues : outcome.Pursues services Good line [] (p.map Course.standing))
    (running : line.isRunning = true) {entered : List Occurrence}
    (total : line.behind.reverse.map Block.shape ++ p.entered.map Occurrence.shape =
      entered.map Occurrence.shape) :
    ∃ e' w', outcome = ⟨.ok (), e', w'⟩ ∧ Good w'.host ∧ e'.Shows ⟨entered, p.now⟩ := by
  obtain ⟨gone, now⟩ := p
  cases now with
  | none =>
    obtain ⟨left, v, entering, good, shapes⟩ := pursues
    have unfinished : line.finished = false := Sequence.unfinished_of_running running
    obtain ⟨w', ends, good'⟩ := Execution.enter_nil
      (e := ⟨{ line with behind := left ++ line.behind, ahead := [] }, []⟩) reliable.calm rfl
      unfinished good
    refine ⟨_, w', entering.trans ends, good', ⟨rfl, rfl, rfl⟩, ?_⟩
    simp only [List.reverse_append, List.map_append, shapes]
    exact total
  | some course =>
    obtain ⟨left, b, rest, threads, w', ends, good, stands, threads_fit, shapes⟩ := pursues
    refine ⟨_, w', ends, good, running, ⟨b, rest, ?_, stands, ?_⟩, threads_fit⟩
    · rw [List.append_nil]
    · rw [List.reverse_append, List.append_assoc, List.map_append, shapes]
      exact total

theorem startedThread_shows (reliable : services.Reliable Good) (address : List Nat)
    {templates : List Template} {p : Pursuit Course}
    (entered : (p.map Course.standing).Entered services Good (templates.map Block.ofTemplate))
    {w : World σ} (good : Good w.host) :
    ∃ e' w', Execution.enter services (startedThread address templates) w = ⟨.ok (), e', w'⟩ ∧
      Good w'.host ∧ e'.Shows p := by
  have pursues := entered (templates.map Block.ofTemplate)
    (by simp [Block.plan_ofTemplate, Function.comp_def]) (Block.hooksSucceed_ofTemplates templates)
    (startedThread address templates).toSequence [] w rfl (List.append_nil _).symm good
  exact pursues.shows reliable rfl rfl

theorem beginBranches_some {spot : List Nat} {branch : Nat} {templates : List Template}
    {course : Course} (now : (beginAll (spot ++ [branch]) 0 templates).now = some course)
    (rest : List (List Template)) :
    beginBranches spot branch (templates :: rest) =
      ((beginBranches spot (branch + 1) rest).1,
        ⟨branch, (beginAll (spot ++ [branch]) 0 templates).entered, course⟩ ::
          (beginBranches spot (branch + 1) rest).2) := by
  simp only [beginBranches, now]

theorem beginBranches_none {spot : List Nat} {branch : Nat} {templates : List Template}
    (now : (beginAll (spot ++ [branch]) 0 templates).now = none) (rest : List (List Template)) :
    beginBranches spot branch (templates :: rest) =
      ((beginBranches spot (branch + 1) rest).1 + 1, (beginBranches spot (branch + 1) rest).2) := by
  simp only [beginBranches, now]

/-- The thread of a branch shows what the branch begins with. -/
def BranchShows (spot : List Nat) (branch : Nat) (templates : List Template)
    (e : Execution) : Prop :=
  e.Shows (beginAll (spot ++ [branch]) 0 templates)

section Branches

variable {templates : List Template} {branches : List (List Template)} {spot : List Nat}

theorem branch_shows (reliable : services.Reliable Good) (spot address : List Nat)
    (entered : ∀ place, ((beginAll place 0 templates).map Course.standing).Entered services Good
      (templates.map Block.ofTemplate)) :
    Starts services Good (BranchShows spot) address templates := by
  intro branch w good
  obtain ⟨e', w', entering, good', finished, quiet, -⟩ :=
    branch_starts reliable address templates branch w good
  obtain ⟨shown, v, same, -, shows⟩ :=
    startedThread_shows reliable (address ++ [branch]) (entered (spot ++ [branch])) good
  rw [entering] at same
  cases same
  exact ⟨e', w', entering, good', finished, quiet, shows⟩

/-- A branch begins with nothing just if nothing in it waits. -/
theorem now_eq_none_iff (reliable : services.Reliable Good) {place : List Nat}
    (entered : ((beginAll place 0 templates).map Course.standing).Entered services Good
      (templates.map Block.ofTemplate)) {w : World σ} (good : Good w.host) :
    (beginAll place 0 templates).now = none ↔ allInstant templates = true := by
  obtain ⟨e', w', entering, -, shows⟩ := startedThread_shows reliable [] entered good
  have finished := finished_startedThread reliable [] templates good
  rw [entering] at finished
  rw [← finished]
  exact shows.finished_iff.symm

theorem beginBranches_completed {first : Nat} (now_iff : ∀ templates ∈ branches, ∀ branch,
      (beginAll (spot ++ [branch]) 0 templates).now = none ↔ allInstant templates = true) :
    (beginBranches spot first branches).1 = instantBranches branches := by
  induction branches generalizing first with
  | nil => rfl
  | cons templates rest ih =>
    have others := @ih (first + 1) fun ts mem => now_iff ts (List.mem_cons_of_mem templates mem)
    have own := now_iff templates List.mem_cons_self first
    cases now : (beginAll (spot ++ [first]) 0 templates).now with
    | none =>
      rw [beginBranches_none now, others, instantBranches, if_pos (own.mp now), Nat.add_comm]
    | some course =>
      have waiting : ¬ allInstant templates = true := by
        intro instant
        rw [own.mpr instant] at now
        cases now
      rw [beginBranches_some now, others, instantBranches, if_neg waiting, Nat.zero_add]

/-- The threads that are left of the branches of a group fit the strands that these begin. -/
theorem StartedFrom.fit {first : Nat} {new : List Thread}
    (left : StartedFrom (BranchShows spot) first branches new)
    (now_iff : ∀ templates ∈ branches, ∀ branch,
      (beginAll (spot ++ [branch]) 0 templates).now = none ↔ allInstant templates = true) :
    threadsFit new (beginBranches spot first branches).2 := by
  induction left with
  | nil => trivial
  | @ended first templates rest new instant _ ih =>
    have own := now_iff templates List.mem_cons_self first
    rw [beginBranches_none (own.mpr instant)]
    exact ih fun ts mem => now_iff ts (List.mem_cons_of_mem templates mem)
  | @waits first templates rest new e waiting shows _ ih =>
    have own := now_iff templates List.mem_cons_self first
    cases now : (beginAll (spot ++ [first]) 0 templates).now with
    | none =>
      rw [own.mp now] at waiting
      cases waiting
    | some course =>
      rw [beginBranches_some now]
      exact ⟨rfl, shows.fits now, ih fun ts mem => now_iff ts (List.mem_cons_of_mem templates mem)⟩

end Branches

/-- The group that a block was made for. -/
theorem Block.join_of_plan {b : Block} {t : Template} {text : String} {choose : UInt64}
    {branches : List (List Template)} (plan : b.plan = ofTemplate t)
    (kind : t.kind = .parallel text choose branches) :
    ∃ join, b.activity = .parallel join ∧ join.branches = branches ∧
      join.target = joinTarget choose.toNat branches.length := by
  have planned : b.activity.plan = (ofTemplate t).activity := congrArg Block.activity plan
  rw [ofTemplate, kind] at planned
  obtain ⟨join, activity, join_plan⟩ := Activity.eq_parallel_of_plan planned
  obtain ⟨own, choose', completed, done⟩ := join
  obtain ⟨rfl, rfl, -, -⟩ := Join.mk.inj join_plan
  exact ⟨_, activity, rfl, rfl⟩

/-- Counting threads does not change what a group was made for. -/
theorem Block.plan_counted {b : Block} {join : Join} (activity : b.activity = .parallel join)
    (counted : Join) (same : counted.plan = join.plan) (handle : Option Nat) :
    ({ b with handle, activity := .parallel counted } : Block).plan = b.plan := by
  simp only [plan, Activity.plan, activity, same]

theorem group_entered (reliable : services.Reliable Good) (o : Occurrence) {text : String}
    {choose : UInt64} {branches : List (List Template)}
    (kind : o.template.kind = .parallel text choose branches)
    (entered : ∀ templates ∈ branches, ∀ place,
      ((beginAll place 0 templates).map Course.standing).Entered services Good
        (templates.map Block.ofTemplate)) :
    ((TemplateKind.begin o (.parallel text choose branches)).map (Stage.standing o)).Entered
      services Good [Block.ofTemplate o.template] := by
  refine .of_block fun b plan hooks line later w running now good => ?_
  obtain ⟨join, activity, rfl, target⟩ := Block.join_of_plan plan kind
  have starts : ∀ templates ∈ join.branches,
      Starts services Good (BranchShows o.spot) line.address templates :=
    fun templates mem => branch_shows reliable o.spot line.address (entered templates mem)
  have now_iff : ∀ templates ∈ join.branches, ∀ branch,
      (beginAll (o.spot ++ [branch]) 0 templates).now = none ↔ allInstant templates = true :=
    fun templates mem branch => now_eq_none_iff reliable (entered templates mem _) good
  simp only [TemplateKind.begin, regroup]
  rw [beginBranches_completed now_iff, ← target]
  by_cases reached : join.target ≤ instantBranches join.branches
  · obtain ⟨left, w', entering, good', shape, -⟩ := Execution.enter_group_ends (e := ⟨line, []⟩)
      reliable now activity hooks starts reached good
    rw [if_pos reached]
    exact .of_left entering good' (shape.trans (Block.shape_of_template plan))
  · obtain ⟨handle, counted, threads, w', entering, good', counted_eq, is_open, left⟩ :=
      Execution.enter_group_waits (e := ⟨line, []⟩) reliable now activity hooks starts
        (Nat.not_le.mp reached) good
    have counted_plan := Block.plan_counted activity counted (by rw [counted_eq]; rfl) handle
    have shape := (Block.shape_eq_of_plan counted_plan).trans (Block.shape_of_template plan)
    rw [if_neg reached]
    refine ⟨[], _, [], _, w', entering, good', ?_, left.fit now_iff, congrArg (fun s => [s]) shape⟩
    refine ⟨counted_plan.trans plan, rfl, is_open, fun j same_join => ?_, fun c mem => ?_⟩
    · cases same_join
      rw [counted_eq]
      rfl
    · rw [List.mem_singleton.mp mem]
      exact hooks

mutual

theorem Template.begin_entered (reliable : services.Reliable Good) :
    ∀ (t : Template) (spot : List Nat),
    ((t.begin spot).map (Stage.standing ⟨spot, t⟩)).Entered services Good [Block.ofTemplate t]
  | ⟨kind, id, image, reminder⟩, spot =>
    kind.begin_entered reliable ⟨spot, ⟨kind, id, image, reminder⟩⟩ rfl

theorem TemplateKind.begin_entered (reliable : services.Reliable Good) : ∀ (kind : TemplateKind)
    (o : Occurrence), o.template.kind = kind →
    ((kind.begin o).map (Stage.standing o)).Entered services Good [Block.ofTemplate o.template]
  | .task text, o, same => .of_waits reliable o (by
      rw [Block.ofTemplate, same]
      trivial)
  | .condition text onYes onNo, o, same => .of_waits reliable o (by
      rw [Block.ofTemplate, same]
      trivial)
  | .asked text loop body, o, same => .of_waits reliable o (by
      rw [Block.ofTemplate, same]
      trivial)
  | .counted times body, o, same => by
    have entered := passes_entered reliable same (beginAll_entered reliable body (o.spot ++ [0]) 0)
      _ times.toInt rfl
    have first : o.template.withPasses times.toInt body = Block.ofTemplate o.template := by
      rw [Template.withPasses, Block.ofTemplate, same]
    rw [first] at entered
    exact entered
  | .parallel _ _ branches, o, same =>
    group_entered reliable o same (branches_entered reliable branches)
  | .sleep value unit text silent, o, same => by
    by_cases positive : 0 < value
    · rw [TemplateKind.begin, if_pos positive]
      refine .of_waits reliable o ?_
      rw [Block.ofTemplate, same]
      exact positive
    · rw [TemplateKind.begin, if_neg positive]
      exact .of_elapsed reliable o same positive

theorem beginAll_entered (reliable : services.Reliable Good) : ∀ (templates : List Template)
    (place : List Nat) (index : Nat),
    ((beginAll place index templates).map Course.standing).Entered services Good
      (templates.map Block.ofTemplate)
  | [], _, _ => .ended
  | t :: rest, place, index =>
    (t.begin_entered reliable (place ++ [index])).within
      (fun stage => Course.standing_mk place index t stage rest)
      (beginAll_entered reliable rest place (index + 1))

theorem branches_entered (reliable : services.Reliable Good) : ∀ (branches : List (List Template)),
    ∀ templates ∈ branches, ∀ place,
      ((beginAll place 0 templates).map Course.standing).Entered services Good
        (templates.map Block.ofTemplate)
  | [], _, mem, _ => absurd mem List.not_mem_nil
  | first :: rest, templates, mem, place => by
    rcases List.mem_cons.mp mem with same | mem
    · rw [same]
      exact beginAll_entered reliable first place 0
    · exact branches_entered reliable rest templates mem place

end

end Stepwise
