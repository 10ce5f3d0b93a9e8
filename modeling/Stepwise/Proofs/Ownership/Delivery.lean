import Stepwise.Proofs.Calls
import Stepwise.Proofs.Delivery
import Stepwise.Proofs.Ownership.Entering

/-!
# No reminder is lost

Every call on a run keeps the book balanced: a condition hands its reminder to the branch that is
chosen, a loop to its next pass, and what leaves or is cancelled gives it back. So a run that has
finished has given all reminders back.
-/

namespace Stepwise

variable {σ : Type} {book : σ → ReminderBook} {services : Services σ}

namespace Block

/-- A reminder that is handed on is held by the last of the blocks. -/
theorem handOn_held (b : Block) (blocks : List Block) (id : Nat) :
    ((b.handOn blocks).1.held ++ blocksHeld (b.handOn blocks).2).count id =
      (b.held ++ blocksHeld blocks).count id := by
  unfold handOn
  split
  · next number last handle ends =>
    obtain ⟨front, rfl⟩ := List.getLast?_eq_some_iff.mp ends
    simp only [held, handle, addHook, List.dropLast_concat, blocksHeld_append, blocksHeld_cons,
      blocksHeld_nil, List.flatMap_cons, LeaveHook.held, Option.toList_none, Option.toList_some,
      List.count_append, List.count_nil]
    omega
  · rfl

variable {w : World σ} {ids : List Nat}

theorem choose_owns {b : Block} (succeed : b.HooksSucceed) (branch : List Template)
    (owns : w.Owns book (b.held ++ ids)) :
    ∃ reaction b' w', b.choose branch w = ⟨.ok reaction, b', w'⟩ ∧ b'.HooksSucceed ∧
      (∀ c ∈ reaction.after, c.HooksSucceed) ∧
      w'.Owns book (b'.held ++ (blocksHeld reaction.after ++ ids)) := by
  refine ⟨_, _, _, b.choose_eq branch w, ?_, ?_, (owns.noteBuilt branch).congr fun id => ?_⟩
  · intro hook mem
    rw [handOn_hooks] at mem
    exact succeed hook mem
  · exact handOn_hooksSucceed (hooksSucceed_ofTemplates branch)
  · have same := b.handOn_held (branch.map ofTemplate) id
    simp only [blocksHeld_ofTemplates, List.append_nil, List.count_append] at same
    simp only [Reaction.after, List.count_append]
    omega

theorem answer_owns {b : Block} (succeed : b.HooksSucceed) (loop : LoopKind) (body : List Template)
    (yes : Bool) (owns : w.Owns book (b.held ++ ids)) :
    ∃ reaction b' w', b.answer loop body yes w = ⟨.ok reaction, b', w'⟩ ∧ b'.HooksSucceed ∧
      (∀ c ∈ reaction.after, c.HooksSucceed) ∧
      w'.Owns book (b'.held ++ (blocksHeld reaction.after ++ ids)) := by
  unfold answer
  split
  · refine ⟨_, _, w.noteBuilt body, rfl, succeed, answer_hooksSucceed loop body,
      (owns.noteBuilt body).congr fun id => ?_⟩
    simp only [Reaction.after, blocksHeld_append, blocksHeld_ofTemplates, blocksHeld_cons,
      blocksHeld_nil, held, successor, List.flatMap_nil, Option.toList_none, List.count_append,
      List.count_nil]
    omega
  · exact ⟨_, _, w, rfl, succeed, List.forall_mem_nil _, owns⟩

variable (keeps : services.KeepsBook book)
include keeps

theorem react_owns {b : Block} (succeed : b.HooksSucceed) (event : Event)
    (owns : w.Owns book (b.held ++ ids)) :
    (∃ reaction b' w', b.react services event w = ⟨.ok reaction, b', w'⟩ ∧ b'.HooksSucceed ∧
      (∀ c ∈ reaction.after, c.HooksSucceed) ∧
      w'.Owns book (b'.held ++ (blocksHeld reaction.after ++ ids))) ∨
    ∃ e b' w', b.react services event w = ⟨.error e, b', w'⟩ ∧ b'.HooksSucceed ∧
      w'.Owns book (b'.held ++ ids) := by
  obtain ⟨id, image, reminder, handle, hooks, text, activity⟩ := b
  have none_after : ∀ c ∈ ([] : List Block), c.HooksSucceed := List.forall_mem_nil _
  cases activity with
  | task =>
    cases event with
    | done => exact Or.inl ⟨.leave [], _, w, rfl, succeed, none_after, owns⟩
    | _ => exact Or.inl ⟨.stay, _, _, rfl, succeed, none_after, owns.note _⟩
  | condition onYes onNo =>
    cases event with
    | yes => exact Or.inl (choose_owns succeed onYes owns)
    | no => exact Or.inl (choose_owns succeed onNo owns)
    | _ => exact Or.inl ⟨.stay, _, _, rfl, succeed, none_after, owns.note _⟩
  | asked loop body =>
    cases event with
    | yes => exact Or.inl (answer_owns succeed loop body true owns)
    | no => exact Or.inl (answer_owns succeed loop body false owns)
    | _ => exact Or.inl ⟨.stay, _, _, rfl, succeed, none_after, owns.note _⟩
  | counted remaining entered body =>
    cases event <;> exact Or.inl ⟨.stay, _, _, rfl, succeed, none_after, owns.note _⟩
  | parallel join =>
    cases event <;> exact Or.inl ⟨.stay, _, _, rfl, succeed, none_after, owns.note _⟩
  | sleep s =>
    cases event with
    | tick remaining => exact Or.inl ⟨.stay, _, w, rfl, succeed, none_after, owns⟩
    | elapsed => exact Or.inl ⟨.leave [], _, w, rfl, succeed, none_after, owns⟩
    | skip =>
      have owns' : (w.forceFinish services).2.Owns book
          ((⟨id, image, reminder, handle, hooks, text, .sleep s⟩ : Block).held ++ ids) :=
        World.ask_owns keeps.forceFinish _ owns
      unfold react
      generalize w.forceFinish services = forced at owns' ⊢
      obtain ⟨answer, v⟩ := forced
      cases answer with
      | ok _ => exact Or.inl ⟨.leave [], _, v, rfl, succeed, none_after, owns'⟩
      | error e => exact Or.inr ⟨e, _, v, rfl, succeed, owns'⟩
    | _ => exact Or.inl ⟨.stay, _, _, rfl, succeed, none_after, owns.note _⟩

end Block

namespace Execution

variable (keeps : services.KeepsBook book) {e : Execution} {b : Block} {rest : List Block}
  {w : World σ} {ids : List Nat}

/-- An execution that an event does not change. -/
theorem balanced_self (tidy : e.Tidy) (owns : w.Owns book (e.held ++ ids)) (notice : Notice) :
    Outcome.Balanced book ids (⟨.ok (), e, w.passOver notice⟩ : Outcome σ Execution Unit) :=
  ⟨owns.note _, tidy⟩

theorem held_of_cons (tidy : e.Tidy) (now : e.ahead = b :: rest)
    (owns : w.Owns book (e.held ++ ids)) :
    w.Owns book (b.held ++ (threadsHeld e.threads ++
      (e.handle.toList ++ (blocksHeld rest ++ ids)))) := by
  obtain ⟨behind, -, -, -⟩ := (tidy_iff e).mp tidy
  refine owns.congr fun id => ?_
  simp only [held_eq, now, blocksHeld_eq_nil behind, blocksHeld_cons, List.count_append,
    List.count_nil]
  omega

/-- A running execution whose current group has its thread `t` put back as `x`. -/
theorem balanced_with_thread {α : Type} (tidy : e.Tidy) (running : e.isRunning = true)
    (now : e.ahead = b :: rest) {before after : List Thread} (t : Thread) {x : Execution}
    (others : allTidy (before ++ after)) (x_tidy : x.Tidy) (result : Except ServiceError α)
    (owns : w.Owns book (b.held ++ (x.held ++ (threadsHeld (before ++ after) ++
      (e.handle.toList ++ (blocksHeld rest ++ ids)))))) :
    Outcome.Balanced book ids
      ⟨result, { e with threads := before ++ { t with execution := x } :: after }, w⟩ := by
  obtain ⟨-, hooks, -, -⟩ := (tidy_iff e).mp tidy
  rw [now] at hooks
  have threads_tidy : allTidy (before ++ { t with execution := x } :: after) := by
    rw [allTidy_append] at others ⊢
    exact ⟨others.1, (allTidy_cons _ _).mpr ⟨x_tidy, others.2⟩⟩
  have with_threads : w.Owns book (b.held ++
      (threadsHeld (before ++ { t with execution := x } :: after) ++
        (e.handle.toList ++ (blocksHeld rest ++ ids)))) := by
    refine owns.congr fun id => ?_
    simp only [threadsHeld_append, threadsHeld_cons, List.count_append]
    omega
  have put_back := balanced_with_block tidy running (hooks b List.mem_cons_self)
    (fun c mem => hooks c (List.mem_cons_of_mem b mem)) threads_tidy result with_threads
  rw [← now] at put_back
  exact put_back

include keeps

theorem leave_owns (tidy : e.Tidy) (running : e.isRunning = true) (hooks : b.HooksSucceed)
    {ahead : List Block} (ahead_hooks : ∀ c ∈ ahead, c.HooksSucceed)
    (owns : w.Owns book (b.held ++ (threadsHeld e.threads ++
      (e.handle.toList ++ (blocksHeld ahead ++ ids))))) :
    (e.leave services b ahead w).Balanced book ids := by
  obtain ⟨behind, -, -, threads_tidy⟩ := (tidy_iff e).mp tidy
  have no_threads : allTidy [] := trivial
  have regrouped : w.Owns book (threadsHeld e.threads ++ (b.held ++
      (e.handle.toList ++ (blocksHeld ahead ++ ids)))) := by
    refine owns.congr fun id => ?_
    simp only [List.count_append]
    omega
  obtain ⟨answer, v, cancelled, owns_v, -⟩ := cancelThreads_owns keeps threads_tidy regrouped
  simp only [leave, cancelled]
  cases answer with
  | error error => exact balanced_with_block tidy running hooks ahead_hooks no_threads _ owns_v
  | ok _ =>
    refine balanced_of_leave keeps tidy running hooks ahead_hooks (fun left nothing => ?_) owns_v
    refine enter_owns keeps (tidy_of_running running (fun c mem => ?_) ahead_hooks trivial) running
      rfl
    rcases List.mem_cons.mp mem with rfl | mem
    · exact nothing
    · exact behind c mem

theorem afterThread_owns (tidy : e.Tidy) (running : e.isRunning = true)
    (now : e.ahead = b :: rest) (join : Join) {before after : List Thread} (t : Thread)
    {x : Execution} (others : allTidy (before ++ after)) (x_tidy : x.Tidy)
    (owns : w.Owns book (b.held ++ (x.held ++ (threadsHeld (before ++ after) ++
      (e.handle.toList ++ (blocksHeld rest ++ ids)))))) :
    (e.afterThread services b rest join before after { t with execution := x } w).Balanced
      book ids := by
  obtain ⟨behind, hooks, -, -⟩ := (tidy_iff e).mp tidy
  rw [now] at hooks
  have hooks_b : b.HooksSucceed := hooks b List.mem_cons_self
  have rest_hooks : ∀ c ∈ rest, c.HooksSucceed := fun c mem => hooks c (List.mem_cons_of_mem b mem)
  unfold afterThread
  split
  · next finished =>
    have nothing := x_tidy.held_of_finished finished
    have regrouped : w.Owns book (threadsHeld (before ++ after) ++
        (b.held ++ (e.handle.toList ++ (blocksHeld rest ++ ids)))) := by
      refine owns.congr fun id => ?_
      simp only [nothing, List.count_append, List.count_nil]
      omega
    obtain ⟨answer, join', threads, v, completed, owns_v, threads_tidy, ends, -⟩ :=
      join.complete_owns keeps others regrouped
    have with_threads : v.Owns book (({ b with activity := .parallel join' } : Block).held ++
        (threadsHeld threads ++ (e.handle.toList ++ (blocksHeld rest ++ ids)))) := by
      refine owns_v.congr fun id => ?_
      simp only [Block.held, List.count_append]
      omega
    have hooks' : ({ b with activity := .parallel join' } : Block).HooksSucceed := hooks_b
    have put_back : ∀ result : Except ServiceError Unit, Outcome.Balanced book ids
        ⟨result, ⟨{ e.toSequence with ahead := { b with activity := .parallel join' } :: rest },
          threads⟩, v⟩ := fun result =>
      balanced_with_block tidy running hooks' rest_hooks threads_tidy result with_threads
    rw [completed]
    cases answer with
    | error error => exact put_back (.error error)
    | ok ended =>
      cases ended with
      | false => exact put_back (.ok ())
      | true =>
        obtain rfl := ends rfl
        exact leave_owns keeps (put_back (.ok ())).tidy running hooks' rest_hooks with_threads
  · exact balanced_with_thread tidy running now t others x_tidy _ owns

theorem dispatch_here_owns (tidy : e.Tidy) (running : e.isRunning = true)
    (now : e.ahead = b :: rest) (event : Event) (owns : w.Owns book (e.held ++ ids)) :
    (e.dispatch services event [] w).Balanced book ids := by
  obtain ⟨-, hooks, -, threads_tidy⟩ := (tidy_iff e).mp tidy
  rw [now] at hooks
  have rest_hooks : ∀ c ∈ rest, c.HooksSucceed := fun c mem => hooks c (List.mem_cons_of_mem b mem)
  rw [dispatch_here running now]
  rcases b.react_owns keeps (hooks b List.mem_cons_self) event (held_of_cons tidy now owns) with
    ⟨reaction, b', v, reacted, hooks', after_hooks, owns_v⟩ | ⟨error, b', v, refused, hooks', owns_v⟩
  · rw [reacted]
    cases reaction with
    | stay => exact balanced_with_block tidy running hooks' rest_hooks threads_tidy _ owns_v
    | leave after =>
      have ahead_hooks : ∀ c ∈ after ++ rest, c.HooksSucceed := by
        intro c mem
        rcases List.mem_append.mp mem with mem | mem
        · exact after_hooks c mem
        · exact rest_hooks c mem
      refine leave_owns keeps tidy running hooks' ahead_hooks (owns_v.congr fun id => ?_)
      simp only [Reaction.after, blocksHeld_append, List.count_append]
      omega
  · rw [refused]
    exact balanced_with_block tidy running hooks' rest_hooks threads_tidy _ owns_v

omit keeps in
theorem tidy_of_threads {before after : List Thread} {t : Thread} (tidy : e.Tidy)
    (threads : e.threads = before ++ t :: after) :
    t.execution.Tidy ∧ allTidy (before ++ after) := by
  have threads_tidy := ((tidy_iff e).mp tidy).2.2.2
  rw [threads, allTidy_append, allTidy_cons] at threads_tidy
  exact ⟨threads_tidy.2.1, (allTidy_append _ _).mpr ⟨threads_tidy.1, threads_tidy.2.2⟩⟩

theorem dispatch_thread_owns (tidy : e.Tidy) (running : e.isRunning = true)
    (now : e.ahead = b :: rest) (join : Join) {before after : List Thread} {t : Thread}
    (threads : e.threads = before ++ t :: after) (event : Event) {path : List Nat}
    (inside : ∀ {ids : List Nat}, w.Owns book (t.execution.held ++ ids) →
      (t.execution.dispatch services event path w).Balanced book ids)
    (owns : w.Owns book (e.held ++ ids)) :
    ((t.execution.dispatch services event path w).bind
      (fun x => { e with threads := before ++ { t with execution := x } :: after })
      fun _ x w => e.afterThread services b rest join before after { t with execution := x }
        w).Balanced book ids := by
  obtain ⟨-, others⟩ := tidy_of_threads tidy threads
  have regrouped : w.Owns book (t.execution.held ++ (b.held ++ (threadsHeld (before ++ after) ++
      (e.handle.toList ++ (blocksHeld rest ++ ids))))) := by
    refine (held_of_cons tidy now owns).congr fun id => ?_
    simp only [threads, threadsHeld_append, threadsHeld_cons, List.count_append]
    omega
  have delivered := inside regrouped
  generalize t.execution.dispatch services event path w = o at delivered ⊢
  obtain ⟨result, x, v⟩ := o
  obtain ⟨owns_v, x_tidy⟩ := delivered
  cases result with
  | ok _ =>
    refine afterThread_owns keeps tidy running now join t others x_tidy (owns_v.congr fun id => ?_)
    simp only [List.count_append]
    omega
  | error error =>
    refine balanced_with_thread tidy running now t others x_tidy _ (owns_v.congr fun id => ?_)
    simp only [List.count_append]
    omega

theorem dispatch_owns (tidy : e.Tidy) (event : Event) (path : List Nat)
    (owns : w.Owns book (e.held ++ ids)) :
    (e.dispatch services event path w).Balanced book ids := by
  induction depth : path.length using Nat.strongRecOn generalizing path e w ids with
  | ind n ih =>
  subst depth
  refine dispatch_cases path (balanced_self tidy owns) ?here ?thread
  case here =>
    intro b rest running now
    rw [← dispatch_here running now]
    exact dispatch_here_owns keeps tidy running now event owns
  case thread =>
    intro b rest join before t after further running now _ threads less
    obtain ⟨t_tidy, -⟩ := tidy_of_threads tidy threads
    exact dispatch_thread_owns keeps tidy running now join threads event
      (fun owns' => ih _ less t_tidy further owns' rfl) owns

end Execution

namespace Run

/-- The root is tidy, and the book is balanced by what the run holds. -/
structure Balanced (book : σ → ReminderBook) (r : Run σ) : Prop where
  owns : r.world.Owns book r.root.held
  tidy : r.root.Tidy

variable {r : Run σ}

theorem balanced_of_outcome {o : Outcome σ Execution Unit} (balanced : o.Balanced book []) :
    (ofOutcome o).2.Balanced book := by
  refine ⟨?_, balanced.tidy⟩
  have owns := balanced.owns
  rw [List.append_nil] at owns
  exact owns

theorem held_block (b : HostBlock) : b.block.held = [] := by
  rw [Block.held, HostBlock.block, Block.handle_ofTemplate]
  exact List.flatMap_eq_nil_iff.mpr fun hook mem => by
    obtain ⟨c, -, rfl⟩ := List.mem_map.mp mem
    rfl

/-- Blocks that hold nothing are put among those ahead of the root. -/
theorem Balanced.with_ahead (balanced : r.Balanced book) {ahead : List Block}
    (hooks : ∀ b ∈ ahead, b.HooksSucceed)
    (same : ∀ id, (blocksHeld ahead).count id = (blocksHeld r.root.ahead).count id) :
    Balanced book { r with root := { r.root with ahead } } := by
  obtain ⟨behind, -, idle, threads_tidy⟩ := (Execution.tidy_iff r.root).mp balanced.tidy
  have held : ∀ id, ({ r.root with ahead } : Execution).held.count id = r.root.held.count id := by
    intro id
    simp only [Execution.held_eq, List.count_append, same]
  refine ⟨balanced.owns.congr held, behind, hooks, fun stopped => ?_, threads_tidy⟩
  obtain ⟨nothing, unstarted⟩ := idle stopped
  refine ⟨List.eq_nil_iff_forall_not_mem.mpr fun id mem => ?_, unstarted⟩
  have zero := held id
  rw [nothing, List.count_nil] at zero
  exact List.count_eq_zero.mp zero mem

theorem balanced_push (balanced : r.Balanced book) {b : HostBlock} (succeeds : b.Succeeds) :
    (r.push b.block).Balanced book := by
  have old := ((Execution.tidy_iff r.root).mp balanced.tidy).2.1
  refine balanced.with_ahead (fun c mem => ?_) fun id => ?_
  · rcases List.mem_append.mp mem with mem | mem
    · exact old c mem
    · rw [List.mem_singleton.mp mem]
      exact HostBlock.hooksSucceed_block succeeds
  · rw [blocksHeld_append, blocksHeld_cons, held_block]
    simp

theorem balanced_splice (balanced : r.Balanced book) {blocks : List HostBlock}
    (succeed : ∀ b ∈ blocks, b.Succeeds) :
    (r.splice (blocks.map HostBlock.block)).Balanced book := by
  have old := ((Execution.tidy_iff r.root).mp balanced.tidy).2.1
  have nothing : blocksHeld (blocks.map HostBlock.block) = [] := by
    refine blocksHeld_eq_nil fun c mem => ?_
    obtain ⟨b, -, rfl⟩ := List.mem_map.mp mem
    exact held_block b
  rw [splice, Sequence.splice_eq]
  refine balanced.with_ahead (fun c mem => ?_) fun id => ?_
  · rcases Sequence.mem_splice mem with mem | mem
    · obtain ⟨b, added, rfl⟩ := List.mem_map.mp mem
      exact HostBlock.hooksSucceed_block (succeed b added)
    · exact old c mem
  · cases now : r.root.ahead with
    | nil => simp only [Sequence.splice, now, nothing, blocksHeld_nil]
    | cons b rest =>
      rw [Sequence.ahead_splice now, blocksHeld_cons, blocksHeld_append, nothing, List.nil_append,
        blocksHeld_cons]

section Calls

variable (keeps : services.KeepsBook book)
include keeps

theorem balanced_start (balanced : r.Balanced book) : (r.start services).2.Balanced book := by
  unfold start
  split
  · exact balanced
  · next unstarted =>
    have unstarted : r.root.started = false := Bool.not_eq_true _ ▸ unstarted
    obtain ⟨behind, hooks, idle, -⟩ := (Execution.tidy_iff r.root).mp balanced.tidy
    have stopped : r.root.isRunning = false := by simp [Sequence.isRunning, unstarted]
    obtain ⟨nothing, flags⟩ := idle stopped
    obtain ⟨unfinished, uncancelled, threads⟩ := flags unstarted
    have owns := balanced.owns
    rw [nothing] at owns
    rw [Execution.held_eq] at nothing
    simp only [List.append_eq_nil_iff] at nothing
    -- The root as it is entered, with the number of its own reminder.
    have entered : ∀ (handle : Option Nat) (w : World σ), w.Owns book handle.toList →
        (ofOutcome (Execution.enter services
          { r.root with started := true, handle := handle } w)).2.Balanced book := by
      intro handle w owns_w
      have running : ({ r.root with started := true, handle := handle } : Execution).isRunning =
          true := by
        simp [Sequence.isRunning, unfinished, uncancelled]
      have tidy : ({ r.root with started := true, handle := handle } : Execution).Tidy := by
        refine tidy_of_running running behind hooks ?_
        rw [threads]
        trivial
      refine balanced_of_outcome (Execution.enter_owns keeps tidy running threads w [] ?_)
      rw [Execution.held_eq]
      simp only [nothing, List.append_nil]
      exact owns_w
    unfold begin
    simp only
    split
    · next reminder description _ _ =>
      obtain ⟨id, w', added, owns'⟩ := World.addReminder_owns keeps description reminder owns
      simp only [added]
      exact entered (some id) w' owns'
    · have none : r.root.handle.toList = [] := nothing.1
      refine entered r.root.handle r.world ?_
      rw [none]
      exact owns

theorem balanced_perform (r : Run σ) (call : Call) (succeeds : call.Succeeds)
    (balanced : r.Balanced book) : (r.perform services call).Balanced book := by
  cases call with
  | start => exact balanced_start keeps balanced
  | dispatch path event =>
    refine balanced_of_outcome (Execution.dispatch_owns keeps balanced.tidy event path ?_)
    rw [List.append_nil]
    exact balanced.owns
  | push block => exact balanced_push balanced succeeds
  | splice blocks => exact balanced_splice balanced succeeds
  | requestPause =>
    obtain ⟨token, w', requested, owns'⟩ := World.requestPause_owns keeps balanced.owns
    simp only [perform, requestPause, requested]
    exact ⟨owns', balanced.tidy⟩
  | releasePause token =>
    obtain ⟨w', released, owns'⟩ := World.releasePause_owns keeps token balanced.owns
    simp only [perform, releasePause, released]
    exact ⟨owns', balanced.tidy⟩

end Calls

theorem Fresh.balanced {blocks : List HostBlock} (fresh : r.Fresh blocks)
    (empty : book r.world.host = .empty) (succeed : ∀ b ∈ blocks, b.Succeeds) :
    r.Balanced book := by
  obtain ⟨description, reminder, root⟩ := fresh.root
  have held : r.root.held = [] := by
    have nothing : blocksHeld (blocks.map HostBlock.block) = [] := by
      refine blocksHeld_eq_nil fun c mem => ?_
      obtain ⟨b, -, rfl⟩ := List.mem_map.mp mem
      exact held_block b
    rw [Execution.held_eq, root]
    simp [Execution.fresh, Sequence.fresh, nothing]
  refine ⟨?_, ?_⟩
  · rw [held]
    refine ⟨?_, fun id => ?_, fun _ id => ?_⟩
    · rw [empty]
      exact ReminderBook.sound_empty
    · rw [List.count_nil]
      exact Nat.zero_le _
    · rw [empty]
      exact Nat.le_refl _
  · rw [Execution.tidy_iff, held, root]
    refine ⟨List.forall_mem_nil _, fun c mem => ?_, fun _ => ⟨rfl, fun _ => ⟨rfl, rfl, rfl⟩⟩, trivial⟩
    obtain ⟨b, added, rfl⟩ := List.mem_map.mp mem
    exact HostBlock.hooksSucceed_block (succeed b added)

theorem Balanced.nodup (balanced : r.Balanced book) : r.root.held.Nodup := by
  rw [List.nodup_iff_count]
  intro id
  exact Nat.le_trans (balanced.owns.active id)
    (List.nodup_iff_count.mp balanced.owns.sound.distinct id)

theorem Balanced.active_of_held (balanced : r.Balanced book) {id : Nat} (held : id ∈ r.root.held) :
    id ∈ (book r.world.host).ids := by
  have le := balanced.owns.active id
  rw [← List.count_pos_iff] at held ⊢
  omega

theorem Balanced.held_of_active (balanced : r.Balanced book) (lossless : r.world.Lossless)
    {id : Nat}
    (active : id ∈ (book r.world.host).ids) : id ∈ r.root.held := by
  have le := balanced.owns.complete lossless id
  rw [← List.count_pos_iff] at active ⊢
  omega

theorem Balanced.settled (balanced : r.Balanced book) (lossless : r.world.Lossless)
    (finished : r.root.finished = true) :
    (book r.world.host).active = [] ∧ (book r.world.host).added = (book r.world.host).removed := by
  have none : (book r.world.host).ids = [] := by
    rw [List.eq_nil_iff_forall_not_mem]
    intro id active
    have held := balanced.held_of_active lossless active
    rw [balanced.tidy.held_of_finished finished] at held
    cases held
  have inactive : (book r.world.host).active = [] := List.map_eq_nil_iff.mp none
  have total := balanced.owns.sound.total
  rw [inactive] at total
  exact ⟨inactive, total⟩

/-- In every state that calls can lead to, what the run holds is active, each reminder is held in
one place, and none was removed that was not active. Unless the host has refused to cancel a
countdown, all that is active is held, and a run that has finished has removed every reminder that
it added. -/
theorem reminders_owned (keeps : services.KeepsBook book) {blocks : List HostBlock}
    (fresh : r.Fresh blocks) (empty : book r.world.host = .empty)
    (succeed : ∀ b ∈ blocks, b.Succeeds) (calls : List Call)
    (all : ∀ call ∈ calls, call.Succeeds) :
    let after := r.after services calls
    (∀ id ∈ after.root.held, id ∈ (book after.world.host).ids) ∧ after.root.held.Nodup ∧
      (book after.world.host).unknownRemovals = 0 ∧
      (after.world.Lossless →
        (∀ id ∈ (book after.world.host).ids, id ∈ after.root.held) ∧
        (after.root.finished = true →
          (book after.world.host).active = [] ∧
          (book after.world.host).added = (book after.world.host).removed)) := by
  have balanced : (r.after services calls).Balanced book :=
    after_induction services (balanced_perform keeps) (fresh.balanced empty succeed) calls all
  refine ⟨fun id => balanced.active_of_held, balanced.nodup, balanced.owns.sound.known, ?_⟩
  intro lossless
  exact ⟨fun id => balanced.held_of_active lossless, balanced.settled lossless⟩

/-- A reminder goes from a condition to the branch that is chosen, whose last block is a loop with a
reminder of its own. -/
def handedOn : Run InMemory :=
  .ofWorkflow ⟨"tea", none, some ⟨10, .minutes⟩,
    [(Template.condition "milk?" [.task "pour",
      (Template.counted 2 [.task "stir"]).withReminder ⟨1, .minutes⟩] []).withReminder ⟨2, .minutes⟩]⟩
    .empty

theorem reminders_owned_handedOn :
    let after := handedOn.after InMemory.services [.start, .dispatch [] .yes, .dispatch [] .done]
    (∀ id ∈ after.root.held, id ∈ after.world.host.reminders.ids) ∧ after.root.held.Nodup ∧
      after.world.host.reminders.unknownRemovals = 0 ∧
      (after.world.Lossless →
        (∀ id ∈ after.world.host.reminders.ids, id ∈ after.root.held) ∧
        (after.root.finished = true → after.world.host.reminders.active = [] ∧
          after.world.host.reminders.added = after.world.host.reminders.removed)) := by
  refine reminders_owned InMemory.keepsBook (fresh_ofWorkflow _ _) rfl ?_ _ ?_
  · intro b mem
    obtain ⟨t, -, rfl⟩ := List.mem_map.mp mem
    exact HostBlock.succeeds_plain t
  · intro call mem
    simp only [List.mem_cons, List.not_mem_nil, or_false] at mem
    rcases mem with rfl | rfl | rfl <;> trivial

/-- A host that starts countdowns but never cancels one. -/
def unrelenting : Services InMemory :=
  { InMemory.services with cancelCountdown := fun _ m => (.error CountdownBoard.unavailable, m) }

/-- The branch that loses waits in a sleep with a reminder. -/
def losingSleep : Run InMemory :=
  .ofWorkflow ⟨"soup", none, none, [.parallel "either" 1
    [[.task "serve"], [(Template.sleep 5 .minutes "cool" false).withReminder ⟨1, .minutes⟩]]]⟩ .empty

theorem keepsBook_unrelenting : unrelenting.KeepsBook InMemory.reminders where
  addReminder := InMemory.keepsBook.addReminder
  removeReminder := InMemory.keepsBook.removeReminder
  setPaused := InMemory.keepsBook.setPaused
  startCountdown := InMemory.keepsBook.startCountdown
  forceFinish := InMemory.keepsBook.forceFinish
  cancelCountdown _ _ := rfl

theorem losingSleep_lost :
    unrelenting.KeepsBook InMemory.reminders ∧
      let after := losingSleep.after unrelenting [.start, .dispatch [0] .done]
      after.root.held = [] ∧ after.world.host.reminders.ids = [1] := by
  refine ⟨keepsBook_unrelenting, ?_⟩
  decide +kernel

end Run

end Stepwise
