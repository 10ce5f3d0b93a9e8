import Stepwise.Proofs.Asides
import Stepwise.Proofs.Living
import Stepwise.Proofs.Releasing.Runs

/-!
# What comes after a block

Only a condition puts blocks after itself when it leaves. Every other block that waits for an event
leaves to the block that was behind it before, be it that the event is for the block itself or for a
thread deep inside a group, which it ends on its way back. Where the block does not leave, those
behind it stay as they are.
-/

namespace Stepwise

variable {σ : Type} {Good : σ → Prop} {services : Services σ} {w v : World σ}

/-- A block that is no condition puts nothing after itself. -/
theorem Block.react_bare {b : Block} (plain : b.isCondition = false) {event : Event}
    {after : List Block} (leaves : (b.react services event w).result = .ok (.leave after)) :
    after = [] := by
  have bare {reaction : Reaction} (none : ∀ after, reaction = .leave after → after = [])
      (same : Except.ok (ε := ServiceError) reaction = .ok (.leave after)) : after = [] :=
    none after (Except.ok.inj same)
  unfold react at leaves
  split at leaves
  · exact bare (fun _ => by simp) leaves
  · next activity => simp [isCondition, activity] at plain
  · next activity => simp [isCondition, activity] at plain
  · next activity => simp [isCondition, activity] at plain
  · next activity => simp [isCondition, activity] at plain
  · exact bare (fun _ => by simp) leaves
  · exact bare (fun _ => by simp) leaves
  · split at leaves
    · exact bare (fun _ => by simp) leaves
    · cases leaves
  · exact bare (fun _ => by simp) leaves

/-- The entry is the next that is recorded of the sequence at the address. -/
def ComesNext (address : List Nat) (entry : Entry) (earlier later : List Entry) : Prop :=
  ∃ before, Adds (Entry.Elsewhere address) earlier before ∧ entry :: before <:+ later

theorem ComesNext.later {address : List Nat} {entry : Entry} {first second third : List Entry}
    (next : ComesNext address entry first second) (further : second <:+ third) :
    ComesNext address entry first third := by
  obtain ⟨before, silent, here⟩ := next
  exact ⟨before, silent, here.trans further⟩

namespace Execution

variable {x : Execution} {b : Block} {rest : List Block} {journal : List Entry}

/-- The execution at a later moment, at the same block, which is no condition, with the same blocks
behind it. -/
def Lingers (x : Execution) (rest : List Block) (later : Execution) : Prop :=
  ∃ b : Block, b.isCondition = false ∧ later.toSequence = { x.toSequence with ahead := b :: rest }

/-- The operation enters `y` in the world `v`, which are the blocks `rest` behind the one that was
current. That one has just left, and before that nothing was recorded of the execution. -/
structure GoesOn (services : Services σ) (Good : σ → Prop) (journal : List Entry) (x : Execution)
    (rest : List Block) (a : Action) (w : World σ) (y : Execution) (v : World σ) : Prop where
  line : ∃ left, y = ⟨x.advance left rest, []⟩
  good : Good v.host
  left : ∃ text earlier, v.journal = .left x.address x.cursor text :: earlier ∧
    Adds (Entry.Elsewhere x.address) journal earlier
  performs : ∀ {r : Run σ} {call : Call}, r.Performs services call a w →
    r.Performs services call (.enter y) v

/-- The execution is still where it was and nothing has been recorded of it, or it goes on to the
blocks behind. -/
def LingersOrGoesOn (services : Services σ) (Good : σ → Prop) (journal : List Entry) (x : Execution)
    (rest : List Block) (a : Action) (w : World σ) (o : Outcome σ Execution Unit) : Prop :=
  (x.Lingers rest o.part ∧ Adds (Entry.Elsewhere x.address) journal o.world.journal) ∨
    ∃ y v, x.GoesOn services Good journal rest a w y v ∧ o = y.enter services v

section Reliable

variable (reliable : services.Reliable Good)
include reliable

theorem leave_goesOn (plain : b.isCondition = false)
    (inside : allWithin (elsewhere reliable x.address journal).Follows x.threads)
    (fine : (elsewhere reliable x.address journal).Fine w []) (rest : List Block) :
    x.LingersOrGoesOn services Good journal rest (.leave b rest x) w
      (x.leave services b rest w) := by
  have before : (elsewhere reliable x.address journal).Fine w (threadsDuties x.threads ++ []) := fine
  have cancelled := (cancelThreads_monitored inside before).left
  have at_block : (elsewhere reliable x.address journal).Fine
    (cancelThreads services x.threads w).world (b.duties ++ []) := cancelled
  have left := elsewhere_left reliable (b.leave_monitored at_block)
  unfold leave
  refine Outcome.bind_cases (fun _ _ => Or.inl ⟨⟨b, plain, rfl⟩, cancelled.2⟩) fun _ all_gone => ?_
  refine Outcome.bind_cases (fun _ _ => Or.inl ⟨⟨_, ?_, rfl⟩, left.2⟩) fun _ has_left => ?_
  · exact (b.leave_ages services _).isCondition.trans plain
  · refine Or.inr ⟨⟨x.advance _ rest, []⟩, x.noteLeft _ _, ?_, rfl⟩
    refine ⟨⟨_, rfl⟩, left.1, ⟨_, _, rfl, left.2⟩, fun performs => performs.further ?_⟩
    exact .onward (Outcome.eq_of_answered all_gone) (Outcome.eq_of_answered has_left)

/-- An event leaves an execution at its block, or it goes on to the blocks behind, unless its block
is a condition. -/
theorem dispatch_goesOn (addressed : x.Addressed) (now : x.ahead = b :: rest)
    (plain : b.isCondition = false) (event : Event) (path : List Nat) (good : Good w.host) :
    x.LingersOrGoesOn services Good w.journal rest (.dispatch event path x) w
      (x.dispatch services event path w) := by
  have inside := addressed.threads_elsewhere reliable w.journal
  have fine (duties : List Duty) : (elsewhere reliable x.address w.journal).Fine w (duties ++ []) :=
    ⟨good, .refl _ _⟩
  have here : x.toSequence = { x.toSequence with ahead := b :: rest } := by rw [← now]
  refine dispatch_along path (fun notice => Or.inl ⟨⟨b, plain, here⟩, .one trivial _⟩) ?here ?thread
  case here =>
    rintro c cs rfl running now'
    obtain ⟨rfl, rfl⟩ := List.cons.inj (now.symm.trans now')
    have reacted := elsewhere_left reliable (b.react_monitored event (fine b.duties))
    have same : (b.react services event w).part.isCondition = false :=
      (b.react_ages services event w).isCondition.trans plain
    refine Outcome.bind_cases (fun _ _ => Or.inl ⟨⟨_, same, rfl⟩, reacted.2⟩)
      fun reaction answered => ?_
    cases reaction with
    | stay => exact Or.inl ⟨⟨_, same, rfl⟩, reacted.2⟩
    | leave after =>
      obtain rfl := Block.react_bare plain answered
      refine (leave_goesOn reliable same inside reacted rest).imp_right ?_
      rintro ⟨y, v, goes_on, ends⟩
      refine ⟨y, v, { goes_on with performs := fun performs => goes_on.performs ?_ }, ends⟩
      exact performs.further (.reacts running now (Outcome.eq_of_answered answered))
  case thread =>
    rintro c cs join before t after further rfl running now' group threads
    obtain ⟨rfl, rfl⟩ := List.cons.inj (now.symm.trans now')
    have numbered := addressed_iff.mp addressed
    have found : findThread t.branch x.threads = some (before, t, after) := by
      rw [threads] at numbered ⊢
      exact findThread_increasing numbered.increasing
    have passes : x.Passes t.branch b rest join before t after := ⟨running, now, group, found⟩
    rw [threads, allWithin_append, allWithin_cons] at inside
    obtain ⟨before_inside, t_inside, after_inside⟩ := inside
    have delivered := (t.execution.dispatch_monitored event further t_inside (fine _)).left
    refine Outcome.bind_cases (fun _ _ => Or.inl ⟨⟨b, plain, here⟩, delivered.1.2⟩)
      fun _ reached => ?_
    unfold afterThread
    split
    · next finished =>
      have others : (elsewhere reliable x.address w.journal).Fine
          (t.execution.dispatch services event further w).world
          (threadsDuties (before ++ after) ++ []) := delivered.1
      have completed := (join.complete_monitored
        ((allWithin_append _ _).mpr ⟨before_inside, after_inside⟩) others).left
      refine Outcome.bind_cases (fun _ _ => Or.inl ⟨⟨_, rfl, rfl⟩, completed.1.2⟩)
        fun ended counted => ?_
      cases ended with
      | false => exact Or.inl ⟨⟨_, rfl, rfl⟩, completed.1.2⟩
      | true =>
        refine (leave_goesOn (x := ⟨{ x.toSequence with ahead := _ :: rest }, _⟩) reliable rfl
          completed.2 completed.1 rest).imp_right ?_
        rintro ⟨y, v, goes_on, ends⟩
        refine ⟨y, v, ⟨goes_on.line, goes_on.good, goes_on.left, fun performs => ?_⟩, ends⟩
        exact goes_on.performs (performs.further (.ends passes (Outcome.eq_of_answered reached)
          finished (Outcome.eq_of_answered counted)))
    · exact Or.inl ⟨⟨b, plain, here⟩, delivered.1.2⟩

/-- A sequence that is entered with no blocks ahead runs out. -/
theorem enter_runs_out (none : x.ahead = []) (unfinished : x.finished = false)
    (good : Good w.host) :
    ComesNext x.address (.finished x.address) w.journal (x.enter services w).world.journal := by
  have parted : Adds (Entry.IsProgress (fun _ => False) False) w.journal
      ({ x.toSequence with finished := true }.unregister services w).world.journal :=
    (Sequence.unregister_adds _ w).progress
  obtain ⟨v, removed, -⟩ :=
    Sequence.unregister_ok reliable.calm { x.toSequence with finished := true } good
  rw [removed] at parted
  refine ⟨v.journal, parted.mono fun _ progress => progress.elsewhere not_false, ?_⟩
  rw [enter_end services w none]
  simp only [Sequence.finish, unfinished, Bool.false_eq_true, if_false, removed, Outcome.bind,
    Outcome.within]
  exact List.suffix_refl _

/-- A sequence that is entered enters the first block ahead, if there is one. -/
theorem enter_enters (now : x.ahead = b :: rest) (good : Good w.host) :
    ∃ text, ComesNext x.address (.entered x.address x.cursor text) w.journal
      (x.enter services w).world.journal := by
  have fine : (elsewhere reliable x.address w.journal).Fine w (b.duties ++ []) := ⟨good, .refl _ _⟩
  obtain ⟨handle, v, registered, good_v⟩ := b.register_ok reliable.calm good
  have registering := b.register_monitored fine
  rw [registered] at registering
  have arriving := (Block.arrive_monitored (b := { b with handle })
    (elsewhere_below reliable x.address w.journal) (fun _ _ _ _ _ => enter_monitored _)
    registering).left
  obtain ⟨leaves, arrived, threads, u, arrives, -⟩ :=
    arrive_staffed reliable { b with handle } x.address good_v
  rw [arrives] at arriving
  refine ⟨arrived.shownText, u.journal, arriving.1.2, ?_⟩
  rw [enter_block services now registered, arrives, Outcome.bind_ok]
  cases leaves with
  | false => exact List.suffix_refl _
  | true =>
    refine (Outcome.bind_onward (Block.leave_onward arrived (x.noteEntered arrived u))
      fun _ left v => ?_ : Onward (fun _ => True) _ _).suffix
    exact (x.noteLeft_onward left v).trans (enter_onward _ _)

end Reliable

end Execution

end Stepwise
