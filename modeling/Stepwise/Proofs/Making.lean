import Stepwise.Proofs.Living
import Stepwise.Proofs.Records

/-!
# What is made on the way

Blocks are made from templates, and sequences for the branches of groups, only where they are
needed. What is made while a sequence is entered follows from the blocks ahead alone, whatever the
host is: a counted loop with a pass left makes its body, and a group makes all its branches before
the first of its threads is started. The blocks that are entered are told with it, so that it shows
when each is made.
-/

namespace Stepwise

variable {σ : Type} {Good : σ → Prop} {w : World σ}

/-- A block or a sequence is made, or a block is entered. -/
inductive Making where
  | built (template : Template)
  | opened (description : Option String) (reminder : Option Reminder)
  | entered (address : List Nat) (index : Nat)
  deriving DecidableEq

def Entry.making? : Entry → Option Making
  | .built template => some (.built template)
  | .opened description reminder => some (.opened description reminder)
  | .entered address index _ => some (.entered address index)
  | _ => none

/-- What has been made so far, the earliest first. -/
def World.makings (w : World σ) : List Making := w.journal.reverse.filterMap Entry.making?

/-- The branches of a group are made, each as a sequence with its blocks. -/
def openings (branches : List (List Template)) : List Making :=
  branches.flatMap fun branch => .opened none none :: branch.map .built

namespace World

theorem makings_cons (host : σ) (pause : PauseRequests) (entry : Entry) (journal : List Entry) :
    makings ⟨host, pause, entry :: journal⟩ =
      makings ⟨host, pause, journal⟩ ++ entry.making?.toList := by
  rw [makings, List.reverse_cons, List.filterMap_append, makings]
  cases made : entry.making? <;> simp [made]

theorem makings_note (entry : Entry) (w : World σ) :
    (w.note entry).makings = w.makings ++ entry.making?.toList :=
  makings_cons w.host w.pause entry w.journal

@[simp]
theorem makings_noteLeft (s : Sequence) (b : Block) (w : World σ) :
    (s.noteLeft b w).makings = w.makings := by
  rw [Sequence.noteLeft, makings_note]
  exact List.append_nil _

theorem makings_noteEntered (s : Sequence) (b : Block) (w : World σ) :
    (s.noteEntered b w).makings = w.makings ++ [.entered s.address s.cursor] := by
  rw [Sequence.noteEntered, makings_note]
  rfl

theorem makings_passOver (notice : Notice) (w : World σ) :
    (w.passOver notice).makings = w.makings := by
  rw [passOver, makings_note]
  exact List.append_nil _

theorem makings_noteBuilt (templates : List Template) (w : World σ) :
    (w.noteBuilt templates).makings = w.makings ++ templates.map .built := by
  simp only [makings, noteBuilt, List.reverse_append, List.reverse_reverse, List.filterMap_append,
    List.filterMap_map]
  congr 1
  exact List.filterMap_eq_map_iff_forall_eq_some.mpr fun _ _ => rfl

theorem makings_noteOpened (branches : List (List Template)) (w : World σ) :
    (w.noteOpened branches).makings = w.makings ++ openings branches := by
  induction branches generalizing w with
  | nil => exact (List.append_nil _).symm
  | cons branch rest ih =>
    have first : (noteBuilt branch (w.note (.opened none none))).makings =
        w.makings ++ (.opened none none :: branch.map .built) := by
      rw [makings_noteBuilt, makings_note, List.append_assoc]
      rfl
    have later := ih (noteBuilt branch (w.note (.opened none none)))
    rw [first, List.append_assoc] at later
    exact later

/-- Where only such entries are added as make nothing, nothing is made. -/
theorem makings_of_adds {kind : Entry → Prop} (plain : ∀ entry, kind entry → entry.making? = none)
    {w' : World σ} (adds : Adds kind w.journal w'.journal) : w'.makings = w.makings := by
  obtain ⟨new, same, each⟩ := adds
  have nothing : new.reverse.filterMap Entry.making? = [] :=
    List.filterMap_eq_nil_iff.mpr fun entry mem =>
      plain entry (each entry (List.mem_reverse.mp mem))
  rw [makings, same, List.reverse_append, List.filterMap_append, nothing, List.append_nil, makings]

theorem makings_of_parting {w' : World σ}
    (adds : Adds (Entry.IsParting fun _ => True) w.journal w'.journal) :
    w'.makings = w.makings := by
  refine makings_of_adds (fun entry parting => ?_) adds
  cases entry with
  | built template => exact parting.elim
  | opened description reminder => exact parting.elim
  | entered address index text => exact parting.elim
  | _ => rfl

theorem makings_ask (request : Request) (call : σ → Except ServiceError Unit × σ) (w : World σ) :
    (w.ask request call).2.makings = w.makings := by
  simp only [ask, makings_cons]
  exact List.append_nil _

variable (services : Services σ)

theorem makings_addReminder (label : String) (r : Reminder) (w : World σ) :
    (w.addReminder services label r).2.makings = w.makings := by
  simp only [addReminder, makings_cons]
  exact List.append_nil _

theorem makings_requestPause (w : World σ) :
    (w.requestPause services).2.makings = w.makings := by
  have noted : (w.note (.pauseRequested w.pause.next)).makings = w.makings := by
    rw [makings_note]
    exact List.append_nil _
  unfold requestPause PauseRequests.request
  by_cases paused : w.pause.isPaused
  · simp only [paused, if_true]
    exact noted
  · have asked : ((w.note (.pauseRequested w.pause.next)).setPaused services true).2.makings =
        w.makings := by
      rw [setPaused, makings_ask, noted]
    simp only [paused]
    generalize setPaused services true (w.note _) = called at asked ⊢
    obtain ⟨answer, v⟩ := called
    cases answer with
    | ok _ => exact asked
    | error e => exact asked

theorem makings_releasePause (token : Nat) (w : World σ) :
    (w.releasePause services token).2.makings = w.makings :=
  makings_of_parting (releasePause_adds token w)

end World

section Quiet

variable (services : Services σ)

theorem makings_cancelThreads (threads : List Thread) (w : World σ) :
    (cancelThreads services threads w).world.makings = w.makings :=
  World.makings_of_parting (cancelThreads_adds (allWithin_all (fun _ => trivial) threads) w)

theorem Sequence.makings_finish (s : Sequence) (w : World σ) :
    (s.finish services w).world.makings = w.makings := by
  unfold finish
  split
  · rfl
  · have removed (s : Sequence) : (s.unregister services w).world.makings = w.makings :=
      World.makings_of_parting (s.unregister_adds w)
    refine Outcome.bind_left (P := fun _ v => World.makings v = w.makings) (removed _) ?_
    intro _ _
    rw [World.makings_note, removed]
    exact List.append_nil _

namespace Block

theorem makings_leave (b : Block) (w : World σ) :
    (b.leave services w).world.makings = w.makings :=
  World.makings_of_parting (b.leave_adds w)

theorem makings_register (b : Block) (w : World σ) :
    (b.register services w).2.makings = w.makings := by
  unfold register
  split
  · next reminder _ _ =>
    have added := World.makings_addReminder services b.shownText reminder w
    split
    · next called => rwa [called] at added
    · next called => rwa [called] at added
  · rfl

end Block

theorem Sleep.makings_start (s : Sleep) (address : List Nat) (w : World σ) :
    (s.start services address w).world.makings = w.makings := by
  have requested := World.makings_requestPause services w
  unfold start
  simp only
  split
  · split
    · next called => rwa [called] at requested
    · next called =>
      rw [called] at requested
      exact (World.makings_ask _ _ _).trans requested
  · exact World.makings_ask _ _ _

end Quiet

namespace Block

/-- What a block makes when it is entered, before all else. -/
def makesOnEntry (b : Block) : List Making :=
  match b.activity with
  | .counted remaining _ body => if 0 < remaining then body.map .built else []
  | .parallel join => openings join.branches
  | _ => []

/-- The block leaves in the call that enters it. -/
def leavesAtOnce (b : Block) : Bool :=
  match b.activity with
  | .counted _ _ _ => true
  | _ => b.isInstant

end Block

mutual

/-- What is made while blocks are entered that stand in a sequence from an index on. -/
def entering (address : List Nat) (index : Nat) : List Block → List Making
  | [] => []
  | b :: rest =>
    let started :=
      match _activity : b.activity with
      | .parallel join => starting address 0 join.target join.branches
      | _ => []
    let later :=
      if b.leavesAtOnce ∧ b.HooksSucceed then entering address (index + 1) (b.pass ++ rest) else []
    b.makesOnEntry ++ started ++ .entered address index :: later
termination_by blocks => 2 * blocksWeight blocks + 1
decreasing_by
  · simp only [blocksWeight_cons, Block.weight, _activity]
    omega
  · have less := b.weight_pass_lt
    simp only [blocksWeight_cons, blocksWeight_append]
    omega

/-- What is made while the threads of branches are started that are numbered on from `first`, until
so many as are needed have run out. -/
def starting (address : List Nat) (first needed : Nat) : List (List Template) → List Making
  | [] => []
  | templates :: rest =>
    let later :=
      if allInstant templates then
        if needed = 1 then [] else starting address (first + 1) (needed - 1) rest
      else starting address (first + 1) needed rest
    entering (address ++ [first]) 0 (templates.map Block.ofTemplate) ++ later
termination_by branches => 2 * weightBranches branches
decreasing_by
  all_goals simp only [weightBranches, blocksWeight_ofTemplates]
  all_goals omega

end

variable (address : List Nat) (index : Nat)

@[simp]
theorem entering_nil : entering address index [] = [] := by
  rw [entering]

/-- What is made until a block has been entered, with all that its threads make at their start. -/
def Block.makesUntilEntered (b : Block) : List Making :=
  match b.join? with
  | some join => b.makesOnEntry ++ starting address 0 join.target join.branches
  | none => b.makesOnEntry

theorem entering_cons (b : Block) (rest : List Block) : entering address index (b :: rest) =
    b.makesUntilEntered address ++ .entered address index ::
      if b.leavesAtOnce ∧ b.HooksSucceed then entering address (index + 1) (b.pass ++ rest)
      else [] := by
  rw [entering, Block.makesUntilEntered, Block.join?]
  split
  · next join activity => rw [activity]
  · next other =>
    rw [List.append_nil]
    congr 1
    split
    · next join found =>
      split at found
      · next activity => exact absurd activity (other _)
      · cases found
    · rfl

theorem starting_waits (first needed : Nat) {templates : List Template}
    (waits : allInstant templates = false) (rest : List (List Template)) :
    starting address first needed (templates :: rest) =
      entering (address ++ [first]) 0 (templates.map Block.ofTemplate) ++
        starting address (first + 1) needed rest := by
  rw [starting, waits, if_neg Bool.false_ne_true]

theorem starting_ends (first : Nat) {templates : List Template}
    (instant : allInstant templates = true) (rest : List (List Template)) :
    starting address first 1 (templates :: rest) =
      entering (address ++ [first]) 0 (templates.map Block.ofTemplate) := by
  rw [starting, instant, if_pos rfl, if_pos rfl, List.append_nil]

theorem starting_counts (first : Nat) {needed : Nat} (more : needed ≠ 1) {templates : List Template}
    (instant : allInstant templates = true) (rest : List (List Template)) :
    starting address first needed (templates :: rest) =
      entering (address ++ [first]) 0 (templates.map Block.ofTemplate) ++
        starting address (first + 1) (needed - 1) rest := by
  rw [starting, instant, if_pos rfl, if_neg more]

namespace Block

/-- The block without its reminder and with those hooks only that may fail. -/
def bare (b : Block) : Block :=
  { b with handle := none, hooks := b.hooks.filter fun hook => ¬ hook.Succeeds }

theorem hooksSucceed_bare (b : Block) : b.bare.HooksSucceed ↔ b.HooksSucceed := by
  constructor
  · intro succeed hook mem
    by_contra fails
    exact fails (succeed hook (List.mem_filter.mpr ⟨mem, decide_eq_true fails⟩))
  · intro succeed hook mem
    exact succeed hook (List.mem_of_mem_filter mem)

theorem bare_ofTemplate (t : Template) : (ofTemplate t).bare = ofTemplate t := by
  obtain ⟨kind, id, image, reminder⟩ := t
  cases kind <;> rfl

theorem map_bare_ofTemplates (ts : List Template) :
    (ts.map ofTemplate).map bare = ts.map ofTemplate := by
  rw [List.map_map]
  exact List.map_congr_left fun t _ => bare_ofTemplate t

theorem map_bare_pass (b : Block) : b.pass.map bare = b.bare.pass := by
  have same : b.bare.activity = b.activity := rfl
  unfold pass
  rw [same]
  cases b.activity with
  | counted remaining entered body =>
    by_cases more : 0 < remaining
    · simp only [if_pos more, List.map_append, map_bare_ofTemplates, List.map_cons, List.map_nil]
      rfl
    · simp only [if_neg more, List.map_nil]
  | _ => rfl

theorem all_isInstant_of_bare {blocks blocks' : List Block}
    (same : blocks.map bare = blocks'.map bare) :
    blocks.all isInstant = blocks'.all isInstant := by
  have bare_all (blocks : List Block) : (blocks.map bare).all isInstant = blocks.all isInstant := by
    rw [List.all_map]
    rfl
  rw [← bare_all, same, bare_all]

end Block

theorem entering_bare (blocks : List Block) :
    entering address index (blocks.map Block.bare) = entering address index blocks := by
  induction weight : blocksWeight blocks using Nat.strongRecOn generalizing index blocks with
  | ind n ih =>
  cases blocks with
  | nil => rfl
  | cons b rest =>
    have further : entering address (index + 1) (b.bare.pass ++ rest.map Block.bare) =
        entering address (index + 1) (b.pass ++ rest) := by
      have less := b.weight_pass_lt
      rw [← b.map_bare_pass, ← List.map_append]
      refine ih _ ?_ _ _ rfl
      rw [← weight, blocksWeight_append, blocksWeight_cons]
      omega
    have makes : b.bare.makesUntilEntered address = b.makesUntilEntered address := rfl
    have leaves : b.bare.leavesAtOnce = b.leavesAtOnce := rfl
    have succeed : b.bare.HooksSucceed = b.HooksSucceed := propext b.hooksSucceed_bare
    simp only [List.map_cons, entering_cons, makes, leaves, succeed, further]

theorem entering_of_bare {blocks blocks' : List Block}
    (same : blocks.map Block.bare = blocks'.map Block.bare) :
    entering address index blocks = entering address index blocks' := by
  rw [← entering_bare, same, entering_bare]

variable {services : Services σ}

section Leaving

variable (reliable : services.Reliable Good)
include reliable

theorem LeaveHook.runAll_answers (hooks : List LeaveHook) (good : Good w.host) :
    (runAll services hooks w).result = .ok () ↔ ∀ hook ∈ hooks, hook.Succeeds := by
  induction hooks generalizing w with
  | nil => exact ⟨fun _ => List.forall_mem_nil _, fun _ => rfl⟩
  | cons hook rest ih =>
    rw [List.forall_mem_cons]
    by_cases succeeds : hook.Succeeds
    · obtain ⟨v, ran, good_v⟩ := run_ok reliable.calm succeeds good
      simp only [runAll, ran]
      rw [ih good_v]
      exact ⟨fun others => ⟨succeeds, others⟩, fun both => both.2⟩
    · refine ⟨fun answered => ?_, fun both => absurd both.1 succeeds⟩
      cases hook with
      | removeReminder id => exact absurd trivial succeeds
      | custom name failure =>
        cases failure with
        | none => exact absurd rfl succeeds
        | some error => cases answered

/-- A block leaves just if none of its callbacks fails. -/
theorem Block.leave_answers (b : Block) (good : Good w.host) :
    (b.leave services w).result = .ok () ↔ b.HooksSucceed := by
  obtain ⟨v, wrapped, good_v⟩ := b.wrapUp_ok reliable good
  simp only [leave, wrapped, Outcome.bind, discard, unregister]
  cases b.handle with
  | none => exact LeaveHook.runAll_answers reliable b.hooks good_v
  | some id =>
    obtain ⟨u, removed, good_u⟩ := World.removeReminder_ok reliable.calm id good_v
    simp only [removed]
    exact LeaveHook.runAll_answers reliable b.hooks good_u

/-- What is made by an operation that goes on once a block has left. -/
theorem Block.makings_bind_leave (b : Block) {wrap : Block → Execution}
    {next : Unit → Block → World σ → Outcome σ Execution Unit} (later : List Making)
    (good : Good w.host)
    (goes_on : ∀ left v, Good v.host → World.makings v = w.makings →
      (next () left v).world.makings = w.makings ++ later) :
    ((b.leave services w).bind wrap next).world.makings =
      w.makings ++ if b.HooksSucceed then later else [] := by
  have good_v := b.leave_good reliable good
  have nothing := b.makings_leave services w
  have answers := b.leave_answers reliable good
  generalize b.leave services w = o at good_v nothing answers
  obtain ⟨result, left, v⟩ := o
  cases result with
  | ok a =>
    rw [if_pos (answers.mp rfl)]
    exact goes_on left v good_v nothing
  | error e =>
    rw [if_neg fun succeed => nomatch answers.mpr succeed]
    exact nothing.trans (List.append_nil _).symm

end Leaving

/-- Entering a sequence makes what follows from the blocks ahead of it. -/
def Execution.EntersMaking (services : Services σ) (Good : σ → Prop) (e : Execution) : Prop :=
  ∀ w : World σ, Good w.host →
    (e.enter services w).world.makings = w.makings ++ entering e.address e.cursor e.ahead

section Entering

variable (reliable : services.Reliable Good)
include reliable

/-- Starting the threads of a group makes what each of them makes, up to the one that ends the
group. -/
theorem startThreads_makings {branches : List (List Template)}
    (enters : ∀ templates ∈ branches, ∀ address,
      (startedThread address templates).EntersMaking services Good)
    {first : Nat} {started : List Thread} {join : Join}
    (position : join.Starting started first branches.length) (hooks : hooksSucceed started)
    (good : Good w.host) :
    (startThreads services (threadsFrom address first branches) started join w).world.makings =
      w.makings ++ starting address first (join.target - join.completed) branches := by
  induction branches generalizing first started join w with
  | nil =>
    rw [threadsFrom, startThreads, starting, List.append_nil]
  | cons templates rest ih =>
    have rest_enters := fun ts mem => enters ts (List.mem_cons_of_mem templates mem)
    have made := enters templates List.mem_cons_self (address ++ [first]) w good
    obtain ⟨e', v, entered, good_v, finished, quiet, -⟩ :=
      branch_starts reliable address templates first w good
    rw [entered] at made
    have short := position.short
    cases instant : allInstant templates with
    | false =>
      rw [instant] at finished
      have later := ih rest_enters (position.keep e')
        ((hooksSucceed_append _ _).mpr ⟨hooks, quiet, trivial⟩) good_v
      rw [startThreads_cons entered, finished, if_neg Bool.false_ne_true, later, made,
        starting_waits address first _ instant, List.append_assoc]
      rfl
    | true =>
      rw [instant] at finished
      by_cases enough : join.completed + 1 = join.target
      · obtain ⟨u, cancelled, -⟩ := cancelThreads_ok reliable hooks good_v
        have nothing := makings_cancelThreads services started v
        have last : join.target - join.completed = 1 := by omega
        rw [cancelled] at nothing
        rw [startThreads_joins position entered finished enough cancelled rfl, last,
          starting_ends address first instant, nothing, made]
        rfl
      · have later := ih rest_enters (position.count enough) hooks good_v
        have target : ({ join with completed := join.completed + 1 } : Join).target =
          join.target := rfl
        have more : join.target - join.completed ≠ 1 := by omega
        have fewer : join.target - join.completed - 1 = join.target - (join.completed + 1) := by
          omega
        rw [startThreads_counts position rfl entered finished enough, later, made, target,
          starting_counts address first more instant, fewer, List.append_assoc]
        rfl

/-- A block that arrives is answered and keeps its callbacks, and makes its own before it is noted
as entered. -/
def Block.ArrivesMaking (services : Services σ) (Good : σ → Prop) (address : List Nat) (b : Block)
    (w : World σ) : Prop :=
  ∃ arrived threads w', Block.arrive services address b w =
      ⟨.ok b.leavesAtOnce, (arrived, threads), w'⟩ ∧ Good w'.host ∧ arrived.hooks = b.hooks ∧
    w'.makings = w.makings ++ b.makesUntilEntered address

theorem Block.arrive_makings_sleep {b : Block} {s : Sleep} (activity : b.activity = .sleep s)
    (address : List Nat) (good : Good w.host) : b.ArrivesMaking services Good address w := by
  have makes : b.makesUntilEntered address = [] := by
    simp only [makesUntilEntered, join?, makesOnEntry, activity]
  unfold ArrivesMaking
  rw [makes]
  by_cases positive : 0 < s.value
  · have stays : b.leavesAtOnce = false := by
      simp only [leavesAtOnce, isInstant, activity, positive, not_true_eq_false, decide_false]
    obtain ⟨s', v, started, good_v, -⟩ := s.start_leads reliable.calm address
      (reliable.startCountdown s.value s.unit address) good
    have quiet := s.makings_start services address w
    rw [started] at quiet
    refine ⟨{ b with activity := .sleep s' }, [], v, ?_, good_v, rfl,
      quiet.trans (List.append_nil _).symm⟩
    rw [stays, arrive_asleep services address w activity positive, started]
    rfl
  · have leaves : b.leavesAtOnce = true := by
      simp only [leavesAtOnce, isInstant, activity, positive, not_false_eq_true, decide_true]
    rw [leaves]
    exact ⟨_, [], w, arrive_elapsed services address w activity positive, good, rfl,
      (List.append_nil _).symm⟩

theorem Block.arrive_makings_group {b : Block} {join : Join}
    (activity : b.activity = .parallel join) (address : List Nat)
    (enters : ∀ templates ∈ join.branches, ∀ address,
      (startedThread address templates).EntersMaking services Good) (good : Good w.host) :
    b.ArrivesMaking services Good address w := by
  have leaves : b.leavesAtOnce = decide (join.target ≤ instantBranches join.branches) := by
    simp only [leavesAtOnce, isInstant, activity]
  have makes : b.makesUntilEntered address =
      openings join.branches ++ starting address 0 join.target join.branches := by
    simp only [makesUntilEntered, join?, makesOnEntry, activity]
  unfold ArrivesMaking
  rw [leaves, makes]
  by_cases none : join.branches = []
  · have reached : join.target ≤ instantBranches join.branches := by
      rw [Join.target_branchless none]
      exact Nat.zero_le _
    have no_makings : openings join.branches ++ starting address 0 join.target join.branches =
        [] := by
      rw [none, starting]
      rfl
    rw [decide_eq_true reached, no_makings]
    exact ⟨_, [], w, arrive_branchless services address w activity none, good, rfl,
      (List.append_nil _).symm⟩
  · have good_opened : Good (w.noteOpened join.branches).host := by
      rwa [World.host_noteOpened]
    have position := Join.starting_opened none
    have made := startThreads_makings address reliable enters position trivial good_opened
    obtain ⟨counted, threads, v, run, good_v, -⟩ := startThreads_lands reliable
      (fun templates _ => branch_starts reliable address templates) position trivial good_opened
    have sum : join.opened.completed + instantBranches join.branches =
      instantBranches join.branches := Nat.zero_add _
    rw [run, World.makings_noteOpened, List.append_assoc] at made
    rw [sum] at run
    refine ⟨{ b with activity := .parallel counted }, threads, v, ?_, good_v, rfl, made⟩
    rw [arrive_group services address w activity none, Join.threads, run]
    rfl

/-- A block that arrives makes its own, and then its threads make theirs. -/
theorem Block.arrive_makings (b : Block) (address : List Nat)
    (enters : ∀ join, b.activity = .parallel join → ∀ templates ∈ join.branches, ∀ address,
      (startedThread address templates).EntersMaking services Good) (good : Good w.host) :
    b.ArrivesMaking services Good address w := by
  have nothing : w.makings = w.makings ++ [] := (List.append_nil _).symm
  cases activity : b.activity with
  | task | condition | asked =>
    have waits : b.Waits := by simp only [Waits, activity]
    have sleepless : b.sleep? = none := by simp only [sleep?, activity]
    have stays : b.leavesAtOnce = false := by simp only [leavesAtOnce, isInstant, activity]
    have makes : b.makesUntilEntered address = [] := by
      simp only [makesUntilEntered, join?, makesOnEntry, activity]
    unfold ArrivesMaking
    rw [stays, makes]
    exact ⟨b, [], w, arrive_still services address w waits sleepless, good, rfl, nothing⟩
  | sleep s => exact arrive_makings_sleep reliable activity address good
  | counted remaining entered body =>
    have leaves : b.leavesAtOnce = true := by simp only [leavesAtOnce, activity]
    have makes : b.makesUntilEntered address = if 0 < remaining then body.map .built else [] := by
      simp only [makesUntilEntered, join?, makesOnEntry, activity]
    unfold ArrivesMaking
    rw [leaves, makes, arrive_counted services address w activity]
    by_cases more : 0 < remaining
    · rw [if_pos more, if_pos more]
      exact ⟨_, [], _, rfl, good, rfl, World.makings_noteBuilt body w⟩
    · rw [if_neg more, if_neg more]
      exact ⟨_, [], w, rfl, good, rfl, nothing⟩
  | parallel join =>
    exact arrive_makings_group reliable activity address (enters join activity) good

theorem Execution.enter_makings (e : Execution) : e.EntersMaking services Good := by
  induction e using enter_induction with
  | nil e now =>
    intro w good
    rw [enter_end services w now, now, entering_nil, List.append_nil]
    exact e.makings_finish services w
  | cons e b rest now goes_on threads_enter =>
    intro w good
    obtain ⟨handle, v, registered, good_v⟩ := b.register_ok reliable.calm good
    have quiet := b.makings_register services w
    obtain ⟨arrived, threads, u, arrives, good_u, hooks, made⟩ :=
      Block.arrive_makings reliable { b with handle } e.address threads_enter good_v
    have succeed : arrived.HooksSucceed ↔ b.HooksSucceed := by
      rw [Block.HooksSucceed, hooks]
      rfl
    have entered : (e.noteEntered arrived u).makings =
        w.makings ++ (b.makesUntilEntered e.address ++ [.entered e.address e.cursor]) := by
      rw [registered] at quiet
      rw [World.makings_noteEntered, made, quiet, List.append_assoc]
      rfl
    have pass : entering e.address (e.cursor + 1) (({ b with handle } : Block).pass ++ rest) =
        entering e.address (e.cursor + 1) (b.pass ++ rest) := by
      apply entering_of_bare
      rw [List.map_append, List.map_append, Block.map_bare_pass, Block.map_bare_pass]
      rfl
    have leaves : ({ b with handle } : Block).leavesAtOnce = b.leavesAtOnce := rfl
    rw [enter_block services now registered, arrives, Outcome.bind_ok, now, entering_cons, leaves]
    cases at_once : b.leavesAtOnce with
    | false =>
      simp only [Bool.false_eq_true, if_false, false_and, entered]
    | true =>
      simp only [if_true, true_and]
      rw [arrived.makings_bind_leave reliable (w := e.noteEntered arrived u)
        (entering e.address (e.cursor + 1) (b.pass ++ rest)) good_u, entered]
      · simp only [succeed, List.append_assoc, List.singleton_append]
      · intro left x good_x same
        have later := goes_on left handle (e.noteLeft left x) good_x
        rw [World.makings_noteLeft, same] at later
        rw [later, ← pass]
        rfl

end Entering

end Stepwise
