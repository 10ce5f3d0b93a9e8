import Stepwise.Proofs.Lasting
import Stepwise.Proofs.Making

/-!
# What runs make

An event that answers a condition or a loop makes the branch chosen or the next body, and then what
follows from the blocks that are entered with it. If the thread that takes the event runs out and
its group ends with it, then the group goes on in the same way. So what each call makes is told by
the execution before the call, and other calls than starts and events make nothing.
-/

namespace Stepwise

variable {σ : Type} {Good : σ → Prop} {services : Services σ} {w : World σ}

namespace Block

/-- The blocks that take the place of a loop once it has been answered. -/
def continued (b : Block) (loop : LoopKind) (body : List Template) (yes : Bool) : List Block :=
  if loop.continuesOn yes then body.map ofTemplate ++ [b.successor (.asked loop body)] else []

/-- The blocks that come next if the event makes the block leave. -/
def after? (event : Event) (b : Block) : Option (List Block) :=
  match event, b.activity with
  | .done, .task | .elapsed, .sleep _ | .skip, .sleep _ => some []
  | .yes, .condition onYes _ => some (onYes.map ofTemplate)
  | .no, .condition _ onNo => some (onNo.map ofTemplate)
  | .yes, .asked loop body => some (b.continued loop body true)
  | .no, .asked loop body => some (b.continued loop body false)
  | _, _ => none

/-- What a block makes when it takes an event. -/
def makesOn (event : Event) (b : Block) : List Making :=
  match event, b.activity with
  | .yes, .condition onYes _ => onYes.map .built
  | .no, .condition _ onNo => onNo.map .built
  | .yes, .asked loop body => if loop.continuesOn true then body.map .built else []
  | .no, .asked loop body => if loop.continuesOn false then body.map .built else []
  | _, _ => []

theorem map_bare_handOn (b : Block) (blocks : List Block) :
    (b.handOn blocks).2.map bare = blocks.map bare := by
  unfold handOn
  split
  · next id last _ h =>
    obtain ⟨front, rfl⟩ := List.getLast?_eq_some_iff.mp h
    have same : (last.addHook (.removeReminder id)).bare = last.bare := by
      simp [bare, addHook, LeaveHook.Succeeds]
    simp [same]
  · rfl

/-- The reaction leads to these blocks, but for what they may hold already. -/
def LeadsTo (blocks? : Option (List Block)) : Reaction → Prop
  | .stay => blocks? = none
  | .leave after => ∃ blocks, blocks? = some blocks ∧ after.map bare = blocks.map bare

/-- What comes of an event for the block: it goes on to these blocks, if it leaves, and these are
made for it. -/
def ReactsMaking (Good : σ → Prop) (b : Block) (w : World σ) (blocks? : Option (List Block))
    (makings : List Making) (o : Outcome σ Block Reaction) : Prop :=
  ∃ reaction b' w', o = ⟨.ok reaction, b', w'⟩ ∧ Good w'.host ∧
    (b'.HooksSucceed ↔ b.HooksSucceed) ∧ LeadsTo blocks? reaction ∧
    w'.makings = w.makings ++ makings

theorem ReactsMaking.stays (b : Block) {b' : Block} {w' : World σ} (good : Good w'.host)
    (same : b'.hooks = b.hooks) (nothing : w'.makings = w.makings) :
    ReactsMaking Good b w none [] ⟨.ok .stay, b', w'⟩ := by
  refine ⟨.stay, b', w', rfl, good, ?_, rfl, nothing.trans (List.append_nil _).symm⟩
  rw [HooksSucceed, same]
  rfl

theorem ReactsMaking.ends (b : Block) {b' : Block} {w' : World σ} (good : Good w'.host)
    (same : b'.hooks = b.hooks) (nothing : w'.makings = w.makings) :
    ReactsMaking Good b w (some []) [] ⟨.ok (.leave []), b', w'⟩ := by
  refine ⟨.leave [], b', w', rfl, good, ?_, ⟨[], rfl, rfl⟩, nothing.trans (List.append_nil _).symm⟩
  rw [HooksSucceed, same]
  rfl

theorem choose_makings (b : Block) (branch : List Template) (good : Good w.host) :
    ReactsMaking Good b w (some (branch.map ofTemplate)) (branch.map .built)
      (b.choose branch w) := by
  refine ⟨_, _, _, choose_eq b branch w, good, ?_, ⟨_, rfl, map_bare_handOn b _⟩,
    World.makings_noteBuilt branch w⟩
  rw [HooksSucceed, handOn_hooks]
  rfl

theorem answer_makings (b : Block) (loop : LoopKind) (body : List Template) (yes : Bool)
    (good : Good w.host) :
    ReactsMaking Good b w (some (b.continued loop body yes))
      (if loop.continuesOn yes then body.map .built else []) (b.answer loop body yes w) := by
  unfold answer continued
  split
  · exact ⟨_, _, _, rfl, good, Iff.rfl, ⟨_, rfl, rfl⟩, World.makings_noteBuilt body w⟩
  · exact .ends b good rfl rfl

theorem skip_makings (reliable : services.Reliable Good) {b : Block} {s : Sleep}
    (activity : b.activity = .sleep s) (good : Good w.host) :
    ReactsMaking Good b w (some []) [] (b.react services .skip w) := by
  obtain ⟨v, forced, good_v⟩ := World.ask_ok reliable.forceFinish .forceFinish good
  have quiet := World.makings_ask .forceFinish services.forceFinish w
  rw [forced] at quiet
  have forced : w.forceFinish services = (.ok (), v) := forced
  simp only [react, activity, forced]
  exact .ends b good_v rfl quiet

theorem react_makings (reliable : services.Reliable Good) (b : Block) (event : Event)
    (good : Good w.host) :
    ReactsMaking Good b w (b.after? event) (b.makesOn event) (b.react services event w) := by
  obtain ⟨id, image, reminder, handle, hooks, text, activity⟩ := b
  have passed (b : Block) (notice : Notice) :
      ReactsMaking Good b w none [] ⟨.ok .stay, b, w.passOver notice⟩ :=
    .stays b good rfl (World.makings_passOver notice w)
  cases activity with
  | task =>
    cases event with
    | done => exact .ends _ good rfl rfl
    | _ => exact passed _ _
  | condition onYes onNo =>
    cases event with
    | yes => exact choose_makings _ onYes good
    | no => exact choose_makings _ onNo good
    | _ => exact passed _ _
  | asked loop body =>
    cases event with
    | yes => exact answer_makings _ loop body true good
    | no => exact answer_makings _ loop body false good
    | _ => exact passed _ _
  | counted remaining entered body => cases event <;> exact passed _ _
  | parallel join => cases event <;> exact passed _ _
  | sleep s =>
    cases event with
    | tick remaining => exact .stays _ good rfl rfl
    | elapsed => exact .ends _ good rfl rfl
    | skip => exact skip_makings reliable rfl good
    | _ => exact passed _ _

end Block

namespace Execution

/-- The blocks that are to be entered once the event has made the current block leave. -/
def goesOn? (event : Event) : List Nat → Execution → Option (List Block)
  | path, e =>
    match path, e.ahead with
    | _, [] => none
    | [], b :: rest => (b.after? event).map (· ++ rest)
    | branch :: path, b :: rest =>
      match b.join?, findThread branch e.threads with
      | some join, some (_, t, _) =>
        -- The group ends with the last thread that it needs.
        if (goesOn? event path t.execution).any (·.all Block.isInstant) ∧
          join.completed + 1 = join.target then some rest else none
      | _, _ => none

/-- What is made once the current block has left with an event, if its callbacks let it. -/
def proceeding (event : Event) (path : List Nat) (e : Execution) : List Making :=
  match e.ahead, e.goesOn? event path with
  | b :: _, some ahead =>
    if b.HooksSucceed then entering e.address (e.cursor + 1) ahead else []
  | _, _ => []

/-- What is made by an event for the thread at a path, and by all that follows from it. -/
def delivering (event : Event) : List Nat → Execution → List Making
  | path, e =>
    let taken :=
      match path with
      | [] => (e.ahead.head?.map (Block.makesOn event)).getD []
      | branch :: path =>
        match findThread branch e.threads with
        | some (_, t, _) => delivering event path t.execution
        | none => []
    taken ++ e.proceeding event path

variable {e : Execution} {b : Block} {rest ahead : List Block} {event : Event} {path : List Nat}
  {branch : Nat} {join : Join} {before after : List Thread} {t : Thread}

theorem goesOn?_here (now : e.ahead = b :: rest) :
    e.goesOn? event [] = (b.after? event).map (· ++ rest) := by
  rw [goesOn?.eq_def]
  simp only [now]

theorem goesOn?_nowhere (now : e.ahead = b :: rest)
    (nowhere : b.join? = none ∨ findThread branch e.threads = none) :
    e.goesOn? event (branch :: path) = none := by
  rw [goesOn?.eq_def]
  simp only [now]
  split
  · next group found =>
    rcases nowhere with none | none
    · exact nomatch none.symm.trans group
    · exact nomatch none.symm.trans found
  · rfl

theorem goesOn?_thread (now : e.ahead = b :: rest) (group : b.join? = some join)
    (found : findThread branch e.threads = some (before, t, after)) :
    e.goesOn? event (branch :: path) =
      if (t.execution.goesOn? event path).any (·.all Block.isInstant) ∧
        join.completed + 1 = join.target then some rest else none := by
  rw [goesOn?.eq_def]
  simp only [now, group, found]

theorem proceeding_none (stays : e.goesOn? event path = none) : e.proceeding event path = [] := by
  unfold proceeding
  rw [stays]
  cases e.ahead <;> rfl

theorem proceeding_some (now : e.ahead = b :: rest) (goes_on : e.goesOn? event path = some ahead) :
    e.proceeding event path =
      if b.HooksSucceed then entering e.address (e.cursor + 1) ahead else [] := by
  unfold proceeding
  rw [now, goes_on]

theorem delivering_here (now : e.ahead = b :: rest) :
    e.delivering event [] = b.makesOn event ++ e.proceeding event [] := by
  rw [delivering, now]
  rfl

theorem delivering_thread (found : findThread branch e.threads = some (before, t, after)) :
    e.delivering event (branch :: path) =
      t.execution.delivering event path ++ e.proceeding event (branch :: path) := by
  rw [delivering, found]

theorem delivering_nowhere (none : findThread branch e.threads = none) :
    e.delivering event (branch :: path) = e.proceeding event (branch :: path) := by
  rw [delivering, none]
  rfl

section Delivery

variable (reliable : services.Reliable Good)
include reliable

theorem Settled.finished_here (settled : e.Settled) (quiet : e.HooksSucceed) (event : Event)
    (good : Good w.host) :
    (e.dispatch services event [] w).part.finished =
      (e.goesOn? event []).any (·.all Block.isInstant) := by
  obtain ⟨running, ⟨b, rest, now, hosts⟩, others⟩ := (settled_iff e).mp settled
  obtain ⟨succeed, rest_hooks, threads_hooks⟩ := quiet.at_cons now
  obtain ⟨reaction, b', v, reacted, good_v, -, leads, -⟩ := b.react_makings reliable event good
  obtain ⟨reaction', b'', v', reacted', -, succeed', fares⟩ :=
    b.react_ok reliable hosts succeed event good
  cases reacted.symm.trans reacted'
  rw [dispatch_here running now, reacted, Outcome.bind_ok, goesOn?_here now]
  cases reaction with
  | stay =>
    have stays : b.after? event = none := leads
    rw [stays]
    exact settled.unfinished
  | leave after =>
    obtain ⟨blocks, leaves, same⟩ := leads
    have ahead_hooks : ∀ c ∈ after ++ rest, c.HooksSucceed := by
      intro c mem
      rcases List.mem_append.mp mem with mem | mem
      · exact fares.2 c mem
      · exact rest_hooks c mem
    obtain ⟨u, left, good_u⟩ := leave_ok reliable succeed' threads_hooks (after ++ rest) good_v
    obtain ⟨e', w', entered, -, lands⟩ :=
      enter_lands (e := ⟨e.advance b'.ended (after ++ rest), []⟩) reliable running ahead_hooks u
        good_u
    have instant : (after ++ rest).all Block.isInstant = (blocks ++ rest).all Block.isInstant := by
      rw [List.all_append, List.all_append, Block.all_isInstant_of_bare same]
    rw [leaves]
    simp only [left, entered, lands.finished]
    exact instant

/-- A sequence runs out when its group ends with a thread and nothing behind it is left to wait
for. -/
theorem Settled.finished_afterThread (settled : e.Settled) (quiet : e.HooksSucceed)
    (place : e.AtThread b rest join before t after) (x : Execution) (good : Good w.host) :
    (e.afterThread services b rest join before after { t with execution := x } w).part.finished =
      (if x.finished = true ∧ join.completed + 1 = join.target then some rest else none).any
        (·.all Block.isInstant) := by
  obtain ⟨succeed, rest_hooks, threads_hooks⟩ := quiet.at_cons place.group.now
  by_cases ends : x.finished = true ∧ join.completed + 1 = join.target
  · rw [place.threads, hooksSucceed_append, hooksSucceed_cons] at threads_hooks
    have others_hooks := (hooksSucceed_append _ _).mpr ⟨threads_hooks.1, threads_hooks.2.2⟩
    obtain ⟨u, ended, good_u⟩ := afterThread_ends (e := e) reliable rest ends.1 place.is_open
      ends.2 succeed others_hooks good
    obtain ⟨e', w', entered, -, lands⟩ := enter_lands
      (e := ⟨e.advance (endedGroup b join) rest, []⟩) reliable place.running rest_hooks u good_u
    rw [ended, entered, if_pos ends]
    exact lands.finished
  · rw [place.afterThread_short fun finished enough => ends ⟨finished, enough⟩, if_neg ends]
    exact settled.unfinished

/-- A thread runs out just if nothing is left to wait for. -/
theorem Settled.finished_dispatch (settled : e.Settled) (quiet : e.HooksSucceed) (event : Event)
    (path : List Nat) (good : Good w.host) :
    (e.dispatch services event path w).part.finished =
      (e.goesOn? event path).any (·.all Block.isInstant) := by
  induction path generalizing e w with
  | nil => exact settled.finished_here reliable quiet event good
  | cons branch path ih =>
    obtain ⟨running, ⟨b, rest, now, hosts⟩, others⟩ := (settled_iff e).mp settled
    have nowhere (none : b.join? = none ∨ findThread branch e.threads = none) :
        (e.dispatch services event (branch :: path) w).part.finished =
          (e.goesOn? event (branch :: path)).any (·.all Block.isInstant) := by
      obtain ⟨notice, -, passed⟩ := dispatch_nowhere services running now none event path w
      rw [passed, goesOn?_nowhere now none]
      exact settled.unfinished
    cases group : b.join? with
    | none => exact nowhere (Or.inl group)
    | some join =>
      cases found : findThread branch e.threads with
      | none => exact nowhere (Or.inr found)
      | some parts =>
        obtain ⟨before, t, after⟩ := parts
        obtain ⟨threads, -⟩ := findThread_some found
        have place := settled.atThread ⟨now, (join_open hosts group).1⟩ threads
        have t_settled := others t place.mem
        have t_quiet := (hooksSucceed_forall _).mp (quiet.at_cons now).2.2 t place.mem
        have runs_out := ih t_settled t_quiet good
        obtain ⟨x, v, delivered, good_v, -⟩ :=
          dispatch_becomes reliable t_settled t_quiet event path good
        rw [delivered] at runs_out
        rw [dispatch_thread running now group found, delivered, Outcome.bind_ok,
          goesOn?_thread now group found, ← runs_out]
        exact settled.finished_afterThread reliable quiet place x good_v

/-- A block that leaves makes nothing, and then the blocks behind it are entered. -/
theorem leave_makings (b : Block) (ahead : List Block) (quiet : hooksSucceed e.threads)
    (good : Good w.host) : (e.leave services b ahead w).world.makings =
      w.makings ++ if b.HooksSucceed then entering e.address (e.cursor + 1) ahead else [] := by
  obtain ⟨v, cancelled, good_v⟩ := cancelThreads_ok reliable quiet good
  have nothing := makings_cancelThreads services e.threads w
  rw [cancelled] at nothing
  rw [leave, cancelled, Outcome.bind_ok, ← nothing]
  refine b.makings_bind_leave reliable _ good_v fun left u good_u same => ?_
  have entered := enter_makings reliable ⟨e.advance left ahead, []⟩ (e.noteLeft left u) good_u
  rw [World.makings_noteLeft, same] at entered
  exact entered

/-- A group goes on once a thread has become `x`, unless it needs further threads. -/
theorem afterThread_makings (place : e.AtThread b rest join before t after) (x : Execution)
    (quiet : hooksSucceed (before ++ after)) (good : Good w.host) :
    (e.afterThread services b rest join before after { t with execution := x } w).world.makings =
      w.makings ++ if x.finished = true ∧ join.completed + 1 = join.target then
        if b.HooksSucceed then entering e.address (e.cursor + 1) rest else [] else [] := by
  by_cases ends : x.finished = true ∧ join.completed + 1 = join.target
  · obtain ⟨finished, enough⟩ := ends
    obtain ⟨v, cancelled, good_v⟩ := cancelThreads_ok reliable quiet good
    have nothing := makings_cancelThreads services (before ++ after) w
    have completed :=
      Join.complete_ends (place.is_open.ends_iff.mpr enough) place.is_open.undone cancelled
    rw [cancelled] at nothing
    let full : Join := { join with completed := join.completed + 1, done := true }
    have made := leave_makings (e := e.regrouped b rest full []) reliable
      { b with activity := .parallel full } rest trivial good_v
    rw [if_pos ⟨finished, enough⟩, ← nothing]
    simp only [afterThread, finished, if_true, completed, Outcome.bind_ok]
    exact made
  · rw [place.afterThread_short fun finished enough => ends ⟨finished, enough⟩, if_neg ends,
      List.append_nil]

theorem Staffed.dispatch_makings_here (staffed : e.Staffed) (running : e.isRunning = true)
    (event : Event) (good : Good w.host) :
    (e.dispatch services event [] w).world.makings = w.makings ++ e.delivering event [] := by
  obtain ⟨b, rest, now⟩ := List.exists_cons_of_ne_nil (staffed.current running)
  obtain ⟨reaction, b', v, reacted, good_v, succeed, leads, made⟩ :=
    b.react_makings reliable event good
  rw [dispatch_here running now, reacted, Outcome.bind_ok, delivering_here now,
    ← List.append_assoc, ← made]
  cases reaction with
  | stay =>
    have stays : e.goesOn? event [] = none := by
      rw [goesOn?_here now, show b.after? event = none from leads]
      rfl
    rw [proceeding_none stays, List.append_nil]
  | leave after =>
    obtain ⟨blocks, leaves, same⟩ := leads
    have goes_on : e.goesOn? event [] = some (blocks ++ rest) := by
      rw [goesOn?_here now, leaves]
      rfl
    have quiet : hooksSucceed e.threads := by
      by_cases none : e.threads = []
      · rw [none]
        trivial
      · exact (staffed.threads none).2
    have alike : (after ++ rest).map Block.bare = (blocks ++ rest).map Block.bare := by
      rw [List.map_append, List.map_append, same]
    have later := leave_makings (e := e) reliable b' (after ++ rest) quiet good_v
    rw [proceeding_some now goes_on, ← entering_of_bare _ _ alike]
    simpa only [succeed] using later

/-- What an event makes is told by the execution that takes it. -/
theorem Staffed.dispatch_makings (staffed : e.Staffed) (running : e.isRunning = true)
    (event : Event) (path : List Nat) (good : Good w.host) :
    (e.dispatch services event path w).world.makings = w.makings ++ e.delivering event path := by
  induction path generalizing e w with
  | nil => exact staffed.dispatch_makings_here reliable running event good
  | cons branch path ih =>
    obtain ⟨b, rest, now⟩ := List.exists_cons_of_ne_nil (staffed.current running)
    cases found : findThread branch e.threads with
    | none =>
      obtain ⟨notice, -, passed⟩ :=
        dispatch_nowhere services running now (Or.inr found) event path w
      rw [passed, World.makings_passOver, delivering_nowhere found,
        proceeding_none (goesOn?_nowhere now (Or.inr found)), List.append_nil]
    | some parts =>
      obtain ⟨before, t, after⟩ := parts
      obtain ⟨threads, -⟩ := findThread_some found
      have mem : t ∈ e.threads := by simp [threads]
      obtain ⟨settled, quiet⟩ := staffed.threads (List.ne_nil_of_mem mem)
      obtain ⟨c, cs, join, group⟩ := settled.atGroup_of_mem mem
      obtain ⟨rfl, rfl⟩ := List.cons.inj (now.symm.trans group.now)
      have place := settled.atThread group threads
      have t_settled := ((settled_iff e).mp settled).2.2 t mem
      have t_quiet := (hooksSucceed_forall _).mp quiet t mem
      have t_staffed : t.execution.Staffed :=
        .of_settled t_settled ((hooksSucceed_iff _).mp t_quiet).2
      have made := ih t_staffed t_settled.isRunning good
      have runs_out := t_settled.finished_dispatch reliable t_quiet event path good
      obtain ⟨x, v, delivered, good_v, -⟩ :=
        dispatch_becomes reliable t_settled t_quiet event path good
      rw [delivered] at made runs_out
      rw [threads, hooksSucceed_append, hooksSucceed_cons] at quiet
      have others := (hooksSucceed_append _ _).mpr ⟨quiet.1, quiet.2.2⟩
      have goes_on : e.goesOn? event (branch :: path) = _ :=
        goesOn?_thread now group.join? found
      rw [← runs_out] at goes_on
      rw [dispatch_thread running now group.join? found, delivered, Outcome.bind_ok,
        afterThread_makings reliable place x others good_v, delivering_thread found, made,
        List.append_assoc]
      split
      · next ends =>
        rw [if_pos ends] at goes_on
        rw [proceeding_some now goes_on]
      · next stays =>
        rw [if_neg stays] at goes_on
        rw [proceeding_none goes_on]

end Delivery

end Execution

/-- What a call makes of a root. -/
def Call.makes (root : Execution) : Call → List Making
  | .start => if root.started then [] else entering root.address root.cursor root.ahead
  | .dispatch path event => if root.isRunning then root.delivering event path else []
  | _ => []

namespace Run

variable {r : Run σ}

theorem makings_ofWorkflow (w : Workflow) (host : σ) :
    (ofWorkflow w host).world.makings =
      .opened (some w.description) w.reminder :: w.blocks.map .built := by
  rw [ofWorkflow, World.makings_noteBuilt, World.makings_note]
  rfl

theorem makings_begin (reliable : services.Reliable Good) (e : Execution) (good : Good w.host) :
    (begin services e w).world.makings = w.makings ++ entering e.address e.cursor e.ahead := by
  unfold begin
  simp only
  split
  · next reminder description _ _ =>
    obtain ⟨id, v, added, good_v⟩ := World.addReminder_ok reliable.calm description reminder good
    have nothing := World.makings_addReminder services description reminder w
    rw [added] at nothing
    rw [added, ← nothing]
    exact Execution.enter_makings reliable { e with started := true, handle := some id } v good_v
  · exact Execution.enter_makings reliable { e with started := true } w good

theorem Living.makings_perform (reliable : services.Reliable Good) (living : r.Living Good)
    (call : Call) :
    (r.perform services call).world.makings = r.world.makings ++ call.makes r.root := by
  cases call with
  | start =>
    simp only [perform, start, Call.makes]
    cases r.root.started with
    | true => exact (List.append_nil _).symm
    | false => exact makings_begin reliable r.root living.good
  | dispatch path event =>
    simp only [perform, dispatch, ofOutcome, Call.makes]
    cases running : r.root.isRunning with
    | true => exact living.staffed.dispatch_makings reliable running event path living.good
    | false =>
      rw [Execution.dispatch_idle running, World.makings_passOver, if_neg Bool.false_ne_true,
        List.append_nil]
  | push block => exact (List.append_nil _).symm
  | splice blocks => exact (List.append_nil _).symm
  | requestPause =>
    exact (World.makings_requestPause services r.world).trans (List.append_nil _).symm
  | releasePause token =>
    exact (World.makings_releasePause services token r.world).trans (List.append_nil _).symm

/-- A run is assembled from the templates of its own sequence only. After that each call makes just
what its root tells before the call, in this order, whatever the services are that answer it. -/
theorem made_as_taken (reliable : services.Reliable Good) {blocks : List HostBlock}
    (fresh : r.Fresh blocks) (good : Good r.world.host) (calls : List Call) (call : Call) :
    (∀ (w : Workflow) (host : σ), (ofWorkflow w host).world.makings =
      .opened (some w.description) w.reminder :: w.blocks.map .built) ∧
    let now := r.after services calls
    (now.perform services call).world.makings = now.world.makings ++ call.makes now.root :=
  ⟨makings_ofWorkflow, (fresh.living_after reliable good calls).makings_perform reliable call⟩

def eggs : Template :=
  .condition "eggs?" [.sleep 0 .seconds "crack" false] [.task "bread"]

def course : Template := .parallel "course" 1 [[eggs], [.task "coffee"]]

/-- A loop around a group that ends with its first thread. -/
def brunch : Run InMemory := .ofWorkflow ⟨"brunch", none, none, [.counted 2 [course]]⟩ .empty

/-- The answer makes one branch. The thread runs out with it, so the group ends and the next pass is
made; there the group makes both of its branches before the first of them is entered. -/
theorem made_as_taken_brunch :
    let now := brunch.after InMemory.services [.start]
    let answer : Call := .dispatch [0] .yes
    answer.makes now.root = [.built (.sleep 0 .seconds "crack" false), .entered [0] 1,
      .built course, .entered [] 2, .opened none none, .built eggs, .opened none none,
      .built (.task "coffee"), .entered [0] 0, .entered [1] 0, .entered [] 3] ∧
    (now.perform InMemory.services answer).world.makings =
      now.world.makings ++ answer.makes now.root := by
  refine ⟨by decide +kernel, ?_⟩
  exact (made_as_taken InMemory.reliable (fresh_ofWorkflow _ _) InMemory.willing_empty [.start]
    (.dispatch [0] .yes)).2

end Run

end Stepwise
