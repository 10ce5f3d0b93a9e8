import Stepwise.Proofs.History
import Stepwise.Proofs.Journal

/-!
# Who keeps the reminder of a condition

A condition that is answered hands its reminder on to the last block of the branch as it is built.
Whatever happens to the sequence, that block stays behind the others of the branch and keeps the
reminder until it leaves, and then the removal is the last that is recorded before it has left.
Blocks that it puts after itself when it leaves get nothing of it.
-/

namespace Stepwise

variable {σ : Type} {services : Services σ}

/-- The block is of the template and keeps the reminder with this number, and no other hook. -/
structure Block.Keeps (id : Nat) (last : Template) (b : Block) : Prop where
  shape : b.shape = (Block.ofTemplate last).shape
  hooks : b.hooks = [.removeReminder id]

/-- One of the blocks keeps the reminder, and these others are behind it. -/
def KeptIn (id : Nat) (last : Template) (back blocks : List Block) : Prop :=
  ∃ front c, blocks = front ++ c :: back ∧ c.Keeps id last

/-- A block of the template has left the sequence at the address, right after the reminder was
removed. -/
def PartedWith (id : Nat) (last : Template) (address : List Nat) (journal : List Entry) : Prop :=
  ∃ (b : Block) (later earlier : List Entry) (index : Nat), b.shape = (Block.ofTemplate last).shape ∧
    journal = later ++ .left address index b.shownText ::
      .asked (.removeReminder id) (.ok ()) :: earlier

section Keeping

variable {id : Nat} {last : Template} {back blocks rest : List Block} {b b' : Block}
  {address : List Nat} {journal : List Entry}

theorem keptIn_cons : KeptIn id last back (b :: rest) ↔
    (b.Keeps id last ∧ rest = back) ∨ KeptIn id last back rest := by
  constructor
  · rintro ⟨front, c, split, keeps⟩
    cases front with
    | nil =>
      cases split
      exact Or.inl ⟨keeps, rfl⟩
    | cons d front =>
      cases split
      exact Or.inr ⟨front, c, rfl, keeps⟩
  · rintro (⟨keeps, rfl⟩ | ⟨front, c, rfl, keeps⟩)
    · exact ⟨[], b, rfl, keeps⟩
    · exact ⟨b :: front, c, rfl, keeps⟩

theorem KeptIn.append (kept : KeptIn id last back rest) (blocks : List Block) :
    KeptIn id last back (blocks ++ rest) := by
  obtain ⟨front, c, rfl, keeps⟩ := kept
  exact ⟨blocks ++ front, c, (List.append_assoc _ _ _).symm, keeps⟩

/-- What the current block is may change as long as it keeps what it kept. -/
theorem KeptIn.head (kept : KeptIn id last back (b :: rest))
    (keeps : b.Keeps id last → b'.Keeps id last) : KeptIn id last back (b' :: rest) := by
  rw [keptIn_cons] at kept ⊢
  exact kept.imp_left fun here => ⟨keeps here.1, here.2⟩

/-- When the current block leaves, the reminder is with that block or further on. -/
theorem KeptIn.leaving (kept : KeptIn id last back (b :: rest)) (new : List Block) :
    b.Keeps id last ∨ KeptIn id last back (new ++ rest) :=
  (keptIn_cons.mp kept).imp And.left fun further => further.append new

theorem PartedWith.later {given : Notice → Prop} {later : List Entry}
    (parted : PartedWith id last address journal) (onward : Onward given journal later) :
    PartedWith id last address later := by
  obtain ⟨new, rfl⟩ := onward.suffix
  obtain ⟨c, between, earlier, index, shape, rfl⟩ := parted
  exact ⟨c, new ++ between, earlier, index, shape, (List.append_assoc _ _ _).symm⟩

end Keeping

namespace Block

variable {id : Nat} {last : Template} {b b' : Block}

theorem Keeps.ages (keeps : b.Keeps id last) (ages : b.Ages b') (hooks : b'.hooks = b.hooks) :
    b'.Keeps id last :=
  ⟨ages.shape.trans keeps.shape, hooks.trans keeps.hooks⟩

theorem arrive_hooks (address : List Nat) (b : Block) (w : World σ) :
    (Block.arrive services address b w).part.1.hooks = b.hooks := by
  cases activity : b.activity with
  | task | condition | asked =>
    rw [Block.arrive, activity]
  | counted remaining entered body =>
    rw [Block.arrive_counted services address w activity]
    split
    · rfl
    · rfl
  | sleep s =>
    by_cases positive : 0 < s.value
    · rw [Block.arrive_asleep services address w activity positive]
      rfl
    · rw [Block.arrive_elapsed services address w activity positive]
  | parallel join =>
    by_cases none : join.branches = []
    · rw [Block.arrive_branchless services address w activity none]
    · rw [Block.arrive_group services address w activity none]
      rfl

theorem react_hooks (b : Block) (event : Event) (w : World σ) :
    (b.react services event w).part.hooks = b.hooks := by
  have answers (loop : LoopKind) (body : List Template) (yes : Bool) :
      (b.answer loop body yes w).part.hooks = b.hooks := by
    unfold answer
    split
    · rfl
    · rfl
  unfold react
  split
  · rfl
  · exact handOn_hooks b _
  · exact handOn_hooks b _
  · exact answers _ _ true
  · exact answers _ _ false
  · rfl
  · rfl
  · split
    · rfl
    · rfl
  · rfl

/-- The branch that an event chooses at a condition. -/
def branchOn (b : Block) (event : Event) : List Template :=
  match event, b.activity with
  | .yes, .condition onYes _ => onYes
  | .no, .condition _ onNo => onNo
  | _, _ => []

theorem react_choosing {event : Event} (chosen : b.branchOn event ≠ []) (w : World σ) :
    b.react services event w = b.choose (b.branchOn event) w := by
  unfold branchOn at chosen ⊢
  unfold react
  split at chosen
  · next activity => simp only [activity]
  · next activity => simp only [activity]
  · exact absurd rfl chosen

/-- The last block of the branch keeps the reminder. -/
theorem handOn_kept {branch : List Template} (holds : b.handle = some id)
    (ends : branch.getLast? = some last) (back : List Block) :
    KeptIn id last back ((b.handOn (branch.map ofTemplate)).2 ++ back) := by
  have built : (branch.map ofTemplate).getLast? = some (ofTemplate last) := by
    rw [List.getLast?_map, ends]
    rfl
  refine ⟨(branch.map ofTemplate).dropLast, (ofTemplate last).addHook (.removeReminder id), ?_, rfl,
    ?_⟩
  · simp only [handOn, holds, built, List.append_assoc, List.singleton_append]
  · simp only [addHook, hooks_ofTemplate]

/-- The last that a block does when it leaves is to give back the reminder that it kept. -/
theorem Keeps.leave (keeps : b.Keeps id last) (w : World σ) :
    (b.leave services w).Yields fun _ b' v =>
      b'.shape = (ofTemplate last).shape ∧
        ∃ earlier, v.journal = .asked (.removeReminder id) (.ok ()) :: earlier := by
  have hooked (c : Block) (v : World σ) (hooks : c.hooks = [.removeReminder id]) :
      (c.runHooks services v).Yields fun _ _ u =>
        ∃ earlier, u.journal = .asked (.removeReminder id) (.ok ()) :: earlier := by
    have recorded : (v.removeReminder services id).2.journal =
        .asked (.removeReminder id) (v.removeReminder services id).1 :: v.journal := rfl
    simp only [runHooks, hooks, LeaveHook.runAll, LeaveHook.run]
    generalize v.removeReminder services id = called at recorded ⊢
    obtain ⟨answer, u⟩ := called
    cases answer with
    | ok _ => exact ⟨v.journal, recorded⟩
    | error e => trivial
  have discarded (c : Block) (v : World σ) (hooks : c.hooks = [.removeReminder id]) :
      (c.discard services v).Yields fun _ _ u =>
        ∃ earlier, u.journal = .asked (.removeReminder id) (.ok ()) :: earlier := by
    have unregistered := Outcome.Ends.of_left (P := fun d _ => d.hooks = [.removeReminder id])
      (o := c.unregister services v) ((c.unregister_hooks services v).trans hooks)
    exact unregistered.bind_yields fun _ d u => hooked d u
  have wrapped := Outcome.Ends.of_left (P := fun d _ => d.hooks = [.removeReminder id])
    (o := b.wrapUp services w) ((b.wrapUp_hooks services w).trans keeps.hooks)
  have removed : (b.leave services w).Yields fun _ _ u =>
      ∃ earlier, u.journal = .asked (.removeReminder id) (.ok ()) :: earlier :=
    wrapped.bind_yields fun _ d u => discarded d u
  rw [Outcome.yields_iff] at removed ⊢
  exact fun a answered => ⟨(b.leave_ages services w).shape.trans keeps.shape, removed a answered⟩

end Block

/-- The block that keeps the reminder is still ahead, or it has left. -/
def Guards (id : Nat) (last : Template) (back : List Block) (address : List Nat) (e : Execution)
    (w : World σ) : Prop :=
  KeptIn id last back e.ahead ∨ PartedWith id last address w.journal

namespace Execution

variable {id : Nat} {last : Template} {back rest : List Block} {b : Block} {e : Execution}

/-- The block that keeps the reminder leaves, or it is among those ahead. -/
theorem guards_leaving {wrap : Block → Execution} {ahead : List Block}
    (kept : b.Keeps id last ∨ KeptIn id last back ahead)
    (goes_on : ∀ (left : Block) (w : World σ), KeptIn id last back ahead →
      (Execution.enter services ⟨e.advance left ahead, []⟩ w).Yields fun _ e' v =>
        Guards id last back e.address e' v) (w : World σ) :
    ((b.leave services w).bind wrap fun _ left w =>
      Execution.enter services ⟨e.advance left ahead, []⟩ (e.noteLeft left w)).Yields
        fun _ e' v => Guards id last back e.address e' v := by
  rcases kept with keeps | further
  · refine (keeps.leave w).bind_yields fun _ left v ⟨shape, earlier, removed⟩ => ?_
    have parted : PartedWith id last e.address (e.noteLeft left v).journal :=
      ⟨left, [], earlier, e.cursor, shape, congrArg _ removed⟩
    have goes_on : Onward (fun _ => True) (e.noteLeft left v).journal
        (Execution.enter services ⟨e.advance left ahead, []⟩ (e.noteLeft left v)).world.journal :=
      enter_onward _ _
    exact Outcome.yields_iff.mpr fun _ _ => Or.inr (parted.later goes_on)
  · have left := Outcome.Ends.of_left (P := fun _ _ => True) (o := b.leave services w) trivial
    exact left.bind_yields fun _ left v _ => goes_on left _ further

theorem enter_guards (e : Execution) : ∀ w : World σ, KeptIn id last back e.ahead →
    (e.enter services w).Yields fun _ e' v => Guards id last back e.address e' v := by
  induction e using enter_induction with
  | nil e now =>
    intro w kept
    obtain ⟨front, c, split, -⟩ := kept
    rw [now] at split
    exact absurd split (by simp)
  | cons e b rest now goes_on starts =>
    intro w kept
    rcases registered : b.register services w with ⟨answer, v⟩
    cases answer with
    | error error =>
      rw [enter_refused services now registered]
      trivial
    | ok handle =>
      rw [enter_block services now registered]
      have ages := (Block.arrive_evolves services (b := { b with handle })
        (fun _ _ ts _ address => enter_evolves services (startedThread address ts)) e.address v).1
      rw [now] at kept
      have arrived := kept.head fun keeps =>
        keeps.ages ((b.ages_of_handle handle).trans ages) (Block.arrive_hooks _ _ _)
      have arrives := Outcome.Ends.of_left (P := fun part _ => KeptIn id last back (part.1 :: rest))
        (o := Block.arrive services e.address { b with handle } v) arrived
      refine arrives.bind_yields fun leaves part u kept => ?_
      cases leaves with
      | false => exact Or.inl kept
      | true => exact guards_leaving (kept.leaving _) (fun left => goes_on left handle) _

theorem leave_guards (e : Execution) {ahead : List Block}
    (kept : b.Keeps id last ∨ KeptIn id last back ahead) (w : World σ) :
    (e.leave services b ahead w).Yields fun _ e' v => Guards id last back e.address e' v := by
  have cancelled := Outcome.Ends.of_left (P := fun _ _ => True)
    (o := cancelThreads services e.threads w) trivial
  unfold leave
  refine cancelled.bind_yields fun _ _ v _ => ?_
  exact guards_leaving kept (fun left => enter_guards ⟨e.advance left ahead, []⟩) v

theorem afterThread_guards {join : Join} (now : e.ahead = b :: rest) (group : b.join? = some join)
    (kept : KeptIn id last back e.ahead) (before after : List Thread) (t : Thread) (w : World σ) :
    (e.afterThread services b rest join before after t w).Yields fun _ e' v =>
      Guards id last back e.address e' v := by
  have regrouped {join' : Join} (same : join'.plan = join.plan) :
      KeptIn id last back ({ b with activity := .parallel join' } :: rest) := by
    rw [now] at kept
    refine kept.head fun keeps => keeps.ages (Block.ages_of_activity ?_) rfl
    rw [Block.activity_of_join? group]
    exact congrArg Activity.parallel same
  unfold afterThread
  simp only
  split
  · have completed := Outcome.Ends.of_left (P := fun part _ => part.1.plan = join.plan)
      (o := join.complete services (before ++ after) w) (join.complete_keeps services _ w).1
    refine completed.bind_yields fun ended part v same => ?_
    cases ended with
    | true => exact leave_guards _ ((regrouped same).leaving []) v
    | false => exact Or.inl (regrouped same)
  · exact Or.inl kept

/-- An event leaves the reminder with the block that keeps it or makes that block leave. -/
theorem dispatch_guards (kept : KeptIn id last back e.ahead) (event : Event) (path : List Nat)
    (w : World σ) :
    (e.dispatch services event path w).Yields fun _ e' v =>
      Guards id last back e.address e' v := by
  refine dispatch_cases (motive := fun o => o.Yields fun _ e' v => Guards id last back e.address e' v)
    path (fun _ => Or.inl kept) ?here ?thread
  case here =>
    intro b rest running now
    rw [now] at kept
    have reacted := kept.head fun keeps =>
      keeps.ages (b.react_ages services event w) (b.react_hooks event w)
    have reacts := Outcome.Ends.of_left (P := fun b' _ => KeptIn id last back (b' :: rest))
      (o := b.react services event w) reacted
    refine reacts.bind_yields fun reaction b' v kept => ?_
    cases reaction with
    | stay => exact Or.inl kept
    | leave after => exact leave_guards e (kept.leaving after) v
  case thread =>
    intro b rest join before t after further running now group threads shorter
    have delivered := Outcome.Ends.of_left (P := fun _ _ => True)
      (o := t.execution.dispatch services event further w) trivial
    exact delivered.bind_yields fun _ x v _ => afterThread_guards now group kept before after _ v

/-- The answer to a condition makes the last block of the chosen branch keep its reminder. -/
theorem answer_guards {event : Event} (running : e.isRunning = true) (now : e.ahead = b :: rest)
    (holds : b.handle = some id) (chosen : (b.branchOn event).getLast? = some last) (w : World σ) :
    (e.dispatch services event [] w).Yields fun _ e' v => Guards id last rest e.address e' v := by
  have some_block : b.branchOn event ≠ [] := by
    intro none
    rw [none] at chosen
    cases chosen
  rw [dispatch_here running now, Block.react_choosing some_block, Block.choose_eq, Outcome.bind_ok]
  exact leave_guards e (Or.inr (Block.handOn_kept holds chosen rest)) _

end Execution

end Stepwise
