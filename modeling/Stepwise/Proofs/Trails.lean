import Stepwise.Proofs.Records
import Stepwise.Proofs.Unfolding

/-!
# The trail of a sequence

In a run without failures the blocks of a sequence have their turns one after the other. A block is
entered, it may wait for an event, and it leaves after the blocks that it puts after itself were put
there; the next turn is that of the first block ahead. The trail of a sequence has a record for each
turn that is over, of what came, what was noted on the way in and on the way out, and what left.
Between two turns a host may put blocks of its own behind the first block ahead.
-/

namespace Stepwise

variable {σ : Type} {services : Services σ}

/-- A block whose turn has come: as it came, the number of the reminder that it has from then on,
and what was noted while it was entered, the latest first. -/
structure Entrance where
  block : Block
  held : Option Nat
  entries : List Entry

/-- A turn that is over: the block as it left and what was noted while it did, the latest first. -/
structure Stay extends Entrance where
  left : Block
  parting : List Entry

/-- The block with its reminder started. -/
def Entrance.current (a : Entrance) : Block := { a.block with handle := a.held }

namespace Block

/-- Only waits and groups change while they are current. -/
def isSteady (b : Block) : Bool :=
  match b.activity with
  | .sleep _ | .parallel _ => false
  | _ => true

theorem isSteady_shape (b : Block) : b.shape.isSteady = b.isSteady := by
  obtain ⟨id, image, reminder, handle, hooks, text, activity⟩ := b
  cases activity <;> rfl

/-- What is made into blocks when the block is entered. -/
def made (b : Block) : List Template :=
  match b.activity with
  | .counted remaining _ body => if 0 < remaining then body else []
  | _ => []

/-- A steady block once it has been entered. With a pass to come it has handed on its reminder. -/
def entered (b : Block) : Block :=
  match b.activity with
  | .counted remaining _ body =>
    { b with
      handle := if 0 < remaining then none else b.handle
      activity := .counted remaining true body }
  | _ => b

theorem shape_entered (b : Block) : b.entered.shape = b.shape := by
  unfold entered
  split
  · next activity => simp only [shape, activity, Activity.shape]
  · rfl

/-- The next pass of a loop. -/
def again (b : Block) : Block :=
  match b.activity with
  | .counted remaining _ body => b.successor (.counted (remaining - 1) true body)
  | activity => b.successor activity

section Counted

variable {b : Block} {remaining : Int} {entered : Bool} {body : List Template}
  (activity : b.activity = .counted remaining entered body)
include activity

theorem entered_counted :
    b.entered = { b with
      handle := if 0 < remaining then none else b.handle
      activity := .counted remaining true body } := by
  simp only [Block.entered, activity]

theorem again_counted : b.again = b.successor (.counted (remaining - 1) true body) := by
  simp only [again, activity]

theorem pass_of_more (more : 0 < remaining) : b.pass = body.map ofTemplate ++ [b.again] := by
  simp only [pass, again, activity, more, if_true]

end Counted

/-- What is noted when the reminder of a block is started, if it needs to be, and its number from
then on. -/
inductive Registers (b : Block) : Option Nat → List Entry → Prop
  | started {reminder : Reminder} {id : Nat} (reminds : b.reminder = some reminder)
      (silent : b.handle = none) :
      b.Registers (some id) [.added b.shownText reminder (.ok id)]
  | kept (needless : b.reminder = none ∨ b.handle ≠ none) : b.Registers b.handle []

theorem register_registers {b : Block} {w v : World σ} {handle : Option Nat}
    (registered : b.register services w = (.ok handle, v)) :
    ∃ adds, b.Registers handle adds ∧ v.journal = adds ++ w.journal := by
  unfold register at registered
  split at registered
  · next reminder reminds silent =>
    unfold World.addReminder at registered
    rcases called : services.addReminder b.shownText reminder w.host with ⟨answer, host⟩
    rw [called] at registered
    cases answer with
    | error e => cases registered
    | ok id =>
      cases registered
      exact ⟨_, .started reminds silent, rfl⟩
  · next needless =>
    cases registered
    refine ⟨[], .kept ?_, rfl⟩
    cases reminded : b.reminder with
    | none => exact Or.inl rfl
    | some reminder => exact Or.inr fun silent => needless reminder reminded silent

theorem shownText_of_shape {b b' : Block} (same : b'.shape = b.shape)
    (unsteady : b.isSteady = false) : b'.shownText = b.shownText := by
  obtain ⟨id, image, reminder, handle, hooks, text, activity⟩ := b
  obtain ⟨id', image', reminder', handle', hooks', text', activity'⟩ := b'
  cases activity <;> cases activity' <;>
    simp_all [shape, isSteady, shownText, Activity.shape, Activity.plan]

theorem entered_of_unsteady {b : Block} (unsteady : b.isSteady = false) : b.entered = b := by
  unfold isSteady at unsteady
  unfold entered
  split
  · next activity => simp [activity] at unsteady
  · rfl

end Block

/-- What was noted is that the block's reminder was started, then what it did on its arrival, and
last that it was entered. -/
def Entrance.Fits (address : List Nat) (a : Entrance) : Prop :=
  ∃ index inner adds,
    a.entries = .entered address index a.current.entered.shownText :: (inner ++ adds) ∧
    a.block.Registers a.held adds ∧
    (a.block.isSteady = true → inner = (a.current.made.map Entry.built).reverse)

/-- The block that has come is current. -/
structure Entrance.Current (a : Entrance) (b : Block) : Prop where
  ages : a.current.Ages b
  handle : b.handle = a.held
  steady : a.block.isSteady = true → b = a.current

/-- The block that has come is about to leave, after it has put these blocks after itself. -/
structure Entrance.Departs (a : Entrance) (b : Block) (after : List Block) : Prop where
  shape : b.shape = a.block.shape
  steady : a.block.isSteady = true → b.ended = a.current.entered.ended
  puts : after = [] ∨ a.current.Unfolds after
  pass : after = [] → a.current.pass = []
  handle : after = [] → b.handle = a.held

/-- The turn ended with these blocks put after the one that left. One that puts nothing there has
its reminder removed. -/
structure Stay.Ends (address : List Nat) (s : Stay) (after : List Block) : Prop where
  fits : s.toEntrance.Fits address
  shape : s.left.shape = s.block.shape
  bare : s.left.held = []
  steady : s.block.isSteady = true → s.left = s.current.entered.ended
  puts : after = [] ∨ s.current.Unfolds after
  pass : after = [] → s.current.pass = []
  parting : ∃ index asks, s.parting = .left address index s.left.shownText :: asks ∧
    (∀ entry ∈ asks, entry.IsParting fun _ => False) ∧
    (after = [] → ∀ id, s.held = some id → .asked (.removeReminder id) (.ok ()) ∈ asks)

theorem Sleep.giveBackToken_ended (s : Sleep) (w : World σ) :
    (s.giveBackToken services w).part = { s with token := none } := by
  unfold giveBackToken
  split
  · next none => rw [← none]
  · rfl

theorem Sleep.release_ended (s : Sleep) (w : World σ) :
    (s.release services w).Yields fun _ s' _ => s' = s.ended := by
  have given (s : Sleep) (w : World σ) :
      (s.giveBackToken services w).Yields fun _ s' _ => s' = { s with token := none } :=
    Outcome.yields_iff.mpr fun _ _ => s.giveBackToken_ended w
  unfold release ended
  by_cases running : s.isRunning = true
  · simp only [running, if_true]
    split
    · exact given _ _
    · trivial
  · simp only [running]
    exact given _ _

theorem LeaveHook.runAll_ended (hooks : List LeaveHook) (w : World σ) :
    (runAll services hooks w).Yields fun _ left _ => left = [] := by
  induction hooks generalizing w with
  | nil => rfl
  | cons hook rest ih =>
    unfold runAll
    split
    · exact ih _
    · trivial

namespace Block

theorem wrapUp_ended (b : Block) (w : World σ) :
    (b.wrapUp services w).Yields fun _ b' _ => b' = { b with activity := b.activity.ended } := by
  unfold wrapUp
  split
  · next activity =>
    rw [activity]
    rfl
  · next s activity =>
    rw [activity]
    refine (s.release_ended w).within_yields fun _ s' _ same => ?_
    rw [same]
    rfl
  · next uncounted awake =>
    obtain ⟨id, image, reminder, handle, hooks, text, activity⟩ := b
    cases activity with
    | counted remaining entered body => exact absurd rfl (uncounted remaining entered body)
    | sleep s => exact absurd rfl (awake s)
    | _ => rfl

/-- A reminder that a block has when it leaves is removed. -/
theorem discard_parts (b : Block) (w : World σ) :
    (b.discard services w).Yields fun _ b' v =>
      b' = { b with handle := none, hooks := [] } ∧ ∃ asks, v.journal = asks ++ w.journal ∧
        (∀ entry ∈ asks, entry.IsParting fun _ => False) ∧
        ∀ id, b.handle = some id → .asked (.removeReminder id) (.ok ()) ∈ asks := by
  have ran (hooks : List LeaveHook) (w : World σ) :
      (LeaveHook.runAll services hooks w).Yields fun _ left v =>
        left = [] ∧ ∃ asks, v.journal = asks ++ w.journal ∧
          ∀ entry ∈ asks, entry.IsParting fun _ => False :=
    Outcome.yields_iff.mpr fun a answered =>
      ⟨Outcome.yields_iff.mp (LeaveHook.runAll_ended hooks w) a answered,
        LeaveHook.runAll_adds hooks w⟩
  unfold discard unregister runHooks
  cases held : b.handle with
  | none =>
    simp only [Outcome.bind_ok]
    refine (ran b.hooks w).within_yields ?_
    rintro _ _ v ⟨rfl, asks, noted, parting⟩
    refine ⟨?_, asks, noted, parting, nofun⟩
    rw [← held]
  | some id =>
    simp only
    rcases removed : w.removeReminder services id with ⟨answer, v⟩
    cases answer with
    | error e => trivial
    | ok _ =>
      have asked : v.journal = .asked (.removeReminder id) (.ok ()) :: w.journal := by
        have answered := congrArg Prod.fst removed
        have same := congrArg (·.2.journal) removed
        simp only [World.removeReminder, World.ask] at answered same
        rw [← same, answered]
      simp only [Outcome.bind_ok]
      refine (ran b.hooks v).within_yields ?_
      rintro _ _ u ⟨rfl, asks, noted, parting⟩
      refine ⟨rfl, asks ++ [.asked (.removeReminder id) (.ok ())], ?_, ?_, ?_⟩
      · rw [noted, asked, List.append_assoc]
        rfl
      · exact List.forall_mem_append.mpr ⟨parting, List.forall_mem_singleton.mpr trivial⟩
      · rintro _ ⟨⟩
        exact List.mem_append_right _ List.mem_cons_self

theorem leave_parts (b : Block) (w : World σ) :
    (b.leave services w).Yields fun _ left v =>
      left = b.ended ∧ ∃ asks, v.journal = asks ++ w.journal ∧
        (∀ entry ∈ asks, entry.IsParting fun _ => False) ∧
        ∀ id, b.handle = some id → .asked (.removeReminder id) (.ok ()) ∈ asks := by
  unfold leave
  have wrapped : (b.wrapUp services w).Yields _ := b.wrapUp_ended w
  obtain ⟨before, noted, parting⟩ : Adds (Entry.IsParting fun _ => False) w.journal
      (b.wrapUp services w).world.journal := b.wrapUp_adds w
  revert wrapped noted
  generalize b.wrapUp services w = o
  obtain ⟨answer, b', v⟩ := o
  intro wrapped noted
  cases answer with
  | error e => trivial
  | ok _ =>
    have same : b' = { b with activity := b.activity.ended } := wrapped
    subst same
    refine (discard_parts _ v).mono (fun _ _ _ _ => trivial) ?_
    rintro _ left u ⟨rfl, asks, noted', parting', removed⟩
    refine ⟨rfl, asks ++ before, ?_, List.forall_mem_append.mpr ⟨parting', parting⟩, ?_⟩
    · rw [noted', show v.journal = _ from noted, List.append_assoc]
    · exact fun id held => List.mem_append_left _ (removed id held)

end Block

/-- A block that departs ends its stay when it has left. -/
theorem Entrance.Departs.leave {a : Entrance} {b : Block} {after : List Block} {s : Sequence}
    (departs : a.Departs b after) (fits : a.Fits s.address) (w : World σ) :
    (b.leave services w).Yields fun _ left v => ∃ parting,
      (s.noteLeft left v).journal = parting ++ w.journal ∧
        (⟨a, left, parting⟩ : Stay).Ends s.address after := by
  refine (b.leave_parts w).mono (fun _ _ _ _ => trivial) ?_
  rintro _ left v ⟨rfl, asks, noted, parting, removed⟩
  refine ⟨.left s.address s.cursor b.ended.shownText :: asks, ?_, ?_⟩
  · exact congrArg (Entry.left s.address s.cursor b.ended.shownText :: ·) noted
  · exact {
      fits
      shape := b.shape_ended.trans departs.shape
      bare := rfl
      steady := departs.steady
      puts := departs.puts
      pass := departs.pass
      parting := ⟨_, asks, rfl, parting, fun none id held =>
        removed id ((departs.handle none).trans held)⟩ }

namespace Block

/-- A counted loop leaves as soon as it has arrived. -/
def isCounted (b : Block) : Bool :=
  match b.activity with
  | .counted _ _ _ => true
  | _ => false

theorem isCounted_shape (b : Block) : b.shape.isCounted = b.isCounted := by
  obtain ⟨id, image, reminder, handle, hooks, text, activity⟩ := b
  cases activity <;> rfl

theorem activity_of_counted {b : Block} (counted : b.isCounted = true) :
    ∃ remaining entered body, b.activity = .counted remaining entered body := by
  unfold isCounted at counted
  split at counted
  · next activity => exact ⟨_, _, _, activity⟩
  · cases counted

theorem arrive_steady {b : Block} (steady : b.isSteady = true) (address : List Nat) (w : World σ) :
    Block.arrive services address b w =
      ⟨.ok b.isCounted, (b.entered, []), w.noteBuilt b.made⟩ := by
  cases activity : b.activity with
  | counted remaining entered body =>
    rw [arrive_counted services address w activity]
    simp only [isCounted, Block.entered, made, activity]
    split
    · rfl
    · rfl
  | sleep s => simp [isSteady, activity] at steady
  | parallel join => simp [isSteady, activity] at steady
  | _ =>
    rw [arrive_still services address w (by simp only [Waits, activity])
      (by simp only [sleep?, activity])]
    simp only [isCounted, entered, made, activity]
    rfl

theorem arrive_unsteady {b : Block} (unsteady : b.isSteady = false) (address : List Nat)
    (w : World σ) :
    ∃ activity, (Block.arrive services address b w).part.1 = { b with activity } := by
  cases activity : b.activity with
  | sleep s =>
    by_cases positive : 0 < s.value
    · rw [arrive_asleep services address w activity positive]
      exact ⟨_, rfl⟩
    · rw [arrive_elapsed services address w activity positive]
      exact ⟨_, rfl⟩
  | parallel join =>
    by_cases none : join.branches = []
    · rw [arrive_branchless services address w activity none]
      exact ⟨_, rfl⟩
    · rw [arrive_group services address w activity none]
      exact ⟨_, rfl⟩
  | _ => simp [isSteady, activity] at unsteady

theorem entered_of_not_counted {b : Block} (other : b.isCounted = false) : b.entered = b := by
  unfold isCounted at other
  unfold entered
  split
  · next activity => simp [activity] at other
  · rfl

theorem pass_of_not_counted {b : Block} (other : b.isCounted = false) : b.pass = [] := by
  unfold isCounted at other
  unfold pass
  split
  · next activity => simp [activity] at other
  · rfl

end Block

theorem Arrives.suffix {given : Notice → Prop} {address : List Nat} {earlier later : List Entry}
    (arrives : Arrives given address earlier later) : earlier <:+ later := by
  cases arrives with
  | still onward => exact onward.suffix
  | started onward => exact onward.suffix.trans (List.suffix_cons _ _)

/-- What came of a block's arrival: it waits, or it is about to leave. -/
structure Entrance.Comes (a : Entrance) (leaves : Bool) (b : Block) (inner : List Entry) : Prop where
  shown : b.shownText = a.current.entered.shownText
  built : a.block.isSteady = true → inner = (a.current.made.map Entry.built).reverse
  waits : leaves = false → a.Current b
  departs : leaves = true → a.Departs b a.current.pass

theorem Entrance.departs_counted {a : Entrance} (counted : a.current.isCounted = true) :
    a.Departs a.current.entered a.current.pass := by
  obtain ⟨remaining, entered, body, activity⟩ := Block.activity_of_counted counted
  have shape : a.current.entered.shape = a.block.shape := a.current.shape_entered
  by_cases more : 0 < remaining
  · have some_pass : a.current.pass ≠ [] := by
      simp [Block.pass_of_more activity more]
    refine ⟨shape, fun _ => rfl, Or.inr ?_, fun none => none, fun none => absurd none some_pass⟩
    rw [Block.pass_of_more activity more, Block.again_counted activity]
    exact .pass activity more
  · have none : a.current.pass = [] := by
      simp only [Block.pass, activity, more, if_false]
    refine ⟨shape, fun _ => rfl, Or.inl none, fun _ => none, fun _ => ?_⟩
    simp only [Block.entered_counted activity, more, if_false]
    rfl

theorem Block.arrive_comes (b : Block) (held : Option Nat) (address : List Nat) (w : World σ) :
    (Block.arrive services address { b with handle := held } w).Yields fun leaves part v =>
      ∃ inner, v.journal = inner ++ w.journal ∧
        ∀ entries, (⟨b, held, entries⟩ : Entrance).Comes leaves part.1 inner := by
  generalize registered : ({ b with handle := held } : Block) = c
  have same : c.isSteady = b.isSteady := registered ▸ rfl
  have current (entries : List Entry) : (⟨b, held, entries⟩ : Entrance).current = c := registered
  cases steady : b.isSteady with
  | true =>
    rw [Block.arrive_steady (same.trans steady)]
    refine ⟨_, rfl, fun entries => ⟨?_, fun _ => ?_, fun waits => ?_, fun leaves => ?_⟩⟩
    · rw [current]
    · rw [current]
    · rw [entered_of_not_counted waits, ← current entries]
      exact ⟨.refl _, rfl, fun _ => rfl⟩
    · rw [← current entries] at leaves ⊢
      exact Entrance.departs_counted leaves
  | false =>
    refine Outcome.yields_iff.mpr fun leaves answered => ?_
    have arrives : (Block.arrive services address c w).Yields fun _ _ v => w.journal <:+ v.journal :=
      (Block.arrive_onward c (fun _ _ _ _ _ => Execution.enter_onward _) w).yields
        fun _ _ _ (arrives : Arrives (fun _ => True) address _ _) => arrives.suffix
    obtain ⟨inner, noted⟩ := Outcome.yields_iff.mp arrives leaves answered
    have ages := (Block.arrive_evolves services (b := c)
      (fun _ _ _ _ _ => Execution.enter_evolves services _) address w).1
    obtain ⟨activity, arrived⟩ : ∃ activity,
        (Block.arrive services address c w).part.1 = { c with activity } :=
      Block.arrive_unsteady (same.trans steady) address w
    have other : c.isCounted = false := by
      subst registered
      cases activity : b.activity <;> simp_all [isSteady, isCounted]
    have never : b.isSteady = true → False := fun yes => nomatch steady.symm.trans yes
    have handle : (Block.arrive services address c w).part.1.handle = held := by
      rw [arrived, ← registered]
    refine ⟨inner, noted.symm, fun entries => ⟨?_, fun yes => (never yes).elim, fun _ => ?_,
      fun _ => ?_⟩⟩
    · rw [current, entered_of_unsteady (same.trans steady)]
      exact shownText_of_shape ages.shape (same.trans steady)
    · exact ⟨(current entries).symm ▸ ages, handle, fun yes => (never yes).elim⟩
    · have none : (⟨b, held, entries⟩ : Entrance).current.pass = [] := by
        rw [current, pass_of_not_counted other]
      rw [none]
      refine ⟨ages.shape.trans ?_, fun yes => (never yes).elim, Or.inl rfl, fun _ => none,
        fun _ => handle⟩
      rw [← registered]
      rfl

theorem Block.handOn_handle {b : Block} {blocks : List Block} (none : (b.handOn blocks).2 = []) :
    (b.handOn blocks).1.handle = b.handle := by
  unfold handOn at none ⊢
  split
  · next holds ends =>
    simp only [holds, ends] at none
    simp at none
  · rfl

namespace Entrance.Current

variable {a : Entrance} {b b' : Block} {after : List Block}

theorem isSteady (current : a.Current b) : b.isSteady = a.block.isSteady := by
  have same : b.shape.isSteady = a.current.shape.isSteady := congrArg _ current.ages.shape
  rwa [Block.isSteady_shape, Block.isSteady_shape] at same

theorem isCounted (current : a.Current b) : b.isCounted = a.current.isCounted := by
  have same : b.shape.isCounted = a.current.shape.isCounted := congrArg _ current.ages.shape
  rwa [Block.isCounted_shape, Block.isCounted_shape] at same

theorem departs (current : a.Current b) (other : b.isCounted = false) (shape : b'.shape = b.shape)
    (ended : b.isSteady = true → b'.ended = b.ended) (puts : after = [] ∨ b.Unfolds after)
    (steady : b.isSteady = false → after = []) (handle : after = [] → b'.handle = b.handle) :
    a.Departs b' after where
  shape := shape.trans current.ages.shape
  steady same := by
    rw [ended (current.isSteady.trans same), current.steady same,
      Block.entered_of_not_counted (current.isCounted.symm.trans other)]
  puts := by
    rcases puts with none | unfolds
    · exact Or.inl none
    · cases same : b.isSteady with
      | false => exact Or.inl (steady same)
      | true => exact Or.inr (current.steady (current.isSteady.symm.trans same) ▸ unfolds)
  pass _ := Block.pass_of_not_counted (current.isCounted.symm.trans other)
  handle none := (handle none).trans current.handle

theorem retimed (current : a.Current b) {s s' : Sleep} (activity : b.activity = .sleep s)
    (same : s'.plan = s.plan) : a.Current { b with activity := .sleep s' } where
  ages := current.ages.trans
    (Block.ages_of_activity (by rw [activity]; exact congrArg Activity.sleep same))
  handle := current.handle
  steady steady := by
    have same := current.isSteady.trans steady
    simp [Block.isSteady, activity] at same

/-- A wait and a group put nothing after themselves. -/
theorem departs_unsteady (current : a.Current b) (unsteady : b.isSteady = false) :
    a.Departs b [] := by
  refine current.departs ?_ rfl (fun _ => rfl) (Or.inl rfl) (fun _ => rfl) fun _ => rfl
  cases activity : b.activity <;> simp_all [Block.isSteady, Block.isCounted]

theorem regrouped (current : a.Current b) {join join' : Join} (activity : b.activity = .parallel join)
    (same : join'.plan = join.plan) : a.Current { b with activity := .parallel join' } where
  ages := current.ages.trans
    (Block.ages_of_activity (by rw [activity]; exact congrArg Activity.parallel same))
  handle := current.handle
  steady steady := by
    have same := current.isSteady.trans steady
    simp [Block.isSteady, activity] at same

/-- What the current block makes of an event. -/
theorem react (current : a.Current b) (event : Event) (w : World σ) :
    (b.react services event w).Yields fun reaction b' _ =>
      match reaction with
      | .stay => a.Current b'
      | .leave after => a.Departs b' after := by
  have chosen {onYes onNo branch : List Template} (activity : b.activity = .condition onYes onNo)
      (one : branch = onYes ∨ branch = onNo) :
      a.Departs (b.handOn (branch.map Block.ofTemplate)).1
        (b.handOn (branch.map Block.ofTemplate)).2 := by
    refine current.departs ?_ (b.handOn_shape _) (fun _ => ?_) (Or.inr (.chosen activity one)) ?_
      Block.handOn_handle
    · simp only [Block.isCounted, activity]
    · unfold Block.handOn
      split <;> rfl
    · simp [Block.isSteady, activity]
  have answered {loop : LoopKind} {body : List Template} (yes : Bool)
      (activity : b.activity = .asked loop body) :
      (b.answer loop body yes w).Yields fun reaction b' _ =>
        match reaction with
        | .stay => a.Current b'
        | .leave after => a.Departs b' after := by
    have other : b.isCounted = false := by simp only [Block.isCounted, activity]
    have steady : b.isSteady = true := by simp only [Block.isSteady, activity]
    unfold Block.answer
    split
    · refine current.departs other rfl (fun _ => rfl) (Or.inr (.again activity)) ?_ ?_
      · exact fun unsteady => nomatch steady.symm.trans unsteady
      · simp
    · exact current.departs other rfl (fun _ => rfl) (Or.inl rfl) (fun _ => rfl) fun _ => rfl
  have past (s s' : Sleep) (activity : b.activity = .sleep s) (same : s'.plan = s.plan) :
      a.Departs { b with activity := .sleep s' } [] :=
    (current.retimed activity same).departs_unsteady rfl
  unfold Block.react
  split
  · next activity =>
    have other : b.isCounted = false := by simp only [Block.isCounted, activity]
    exact current.departs other rfl (fun _ => rfl) (Or.inl rfl) (fun _ => rfl) fun _ => rfl
  · next activity => exact chosen activity (Or.inl rfl)
  · next activity => exact chosen activity (Or.inr rfl)
  · next activity => exact answered true activity
  · next activity => exact answered false activity
  · next s activity => exact current.retimed activity rfl
  · next s activity => exact past s _ activity rfl
  · next s activity =>
    split
    · exact past s _ activity rfl
    · trivial
  · exact current

end Entrance.Current

/-- The turns in a sequence at an address, the latest first, from when these blocks were ahead to
when those are. -/
inductive Trail (address : List Nat) (given : List Block) : List Stay → List Block → Prop
  | given : Trail address given [] given
  | ended {done : List Stay} {s : Stay} {rest after : List Block}
      (trail : Trail address given done (s.block :: rest)) (ends : s.Ends address after) :
      Trail address given (s :: done) (after ++ rest)
  | added {done : List Stay} {front back : List Block}
      (trail : Trail address given done (front ++ back)) (new : List Block)
      (behind : front = [] → back = []) : Trail address given done (front ++ (new ++ back))

/-- A trail can be taken up where one of its turns began. -/
theorem Trail.taken_up {address : List Nat} {given ahead : List Block} {later earlier : List Stay}
    {s : Stay} (trail : Trail address given (later ++ s :: earlier) ahead) :
    ∃ back, Trail address given earlier (s.block :: back) ∧
      Trail address (s.block :: back) (later ++ [s]) ahead := by
  generalize turns : later ++ s :: earlier = done at trail
  induction trail generalizing later with
  | given => exact absurd turns (by simp)
  | @ended done s' rest after trail ends ih =>
    cases later with
    | nil =>
      obtain ⟨rfl, rfl⟩ := List.cons.inj turns
      exact ⟨rest, trail, .ended .given ends⟩
    | cons s'' later =>
      obtain ⟨rfl, same⟩ := List.cons.inj turns
      obtain ⟨back, before, since⟩ := ih same
      exact ⟨back, before, .ended since ends⟩
  | added trail new behind ih =>
    obtain ⟨back, before, since⟩ := ih turns
    exact ⟨back, before, .added since new behind⟩

/-- The journal has what was noted in these turns, one turn after the other. -/
def Recorded : List Stay → List Entry → Prop
  | [], _ => True
  | s :: earlier, journal => ∃ since between before,
      journal = since ++ (s.parting ++ (between ++ (s.entries ++ before))) ∧ Recorded earlier before

theorem Recorded.mono {done : List Stay} {journal later : List Entry}
    (recorded : Recorded done journal) (further : journal <:+ later) : Recorded done later := by
  cases done with
  | nil => trivial
  | cons s earlier =>
    obtain ⟨since, between, before, rfl, recorded⟩ := recorded
    obtain ⟨more, rfl⟩ := further
    exact ⟨more ++ since, between, before, by simp only [List.append_assoc], recorded⟩

theorem Recorded.mem {done : List Stay} {journal : List Entry} {s : Stay} {entry : Entry}
    (recorded : Recorded done journal) (mem : s ∈ done) (noted : entry ∈ s.parting ++ s.entries) :
    entry ∈ journal := by
  induction done generalizing journal with
  | nil => cases mem
  | cons s' earlier ih =>
    obtain ⟨since, between, before, rfl, recorded⟩ := recorded
    rcases List.mem_cons.mp mem with rfl | mem
    · rcases List.mem_append.mp noted with noted | noted
      · simp [noted]
      · simp [noted]
    · simp [ih recorded mem]

/-- The journal has what was noted in these turns and then in the entrance. -/
def Entrance.Recorded (a : Entrance) (done : List Stay) (journal : List Entry) : Prop :=
  ∃ since before, journal = since ++ (a.entries ++ before) ∧ Stepwise.Recorded done before

theorem Entrance.Recorded.mono {a : Entrance} {done : List Stay} {journal later : List Entry}
    (recorded : a.Recorded done journal) (further : journal <:+ later) : a.Recorded done later := by
  obtain ⟨since, before, rfl, recorded⟩ := recorded
  obtain ⟨more, rfl⟩ := further
  exact ⟨more ++ since, before, by rw [List.append_assoc], recorded⟩

theorem Entrance.Recorded.left {a : Entrance} {done : List Stay} {journal parting : List Entry}
    (recorded : a.Recorded done journal) (left : Block) :
    Stepwise.Recorded (⟨a, left, parting⟩ :: done) (parting ++ journal) := by
  obtain ⟨since, before, rfl, recorded⟩ := recorded
  exact ⟨[], since, before, rfl, recorded⟩

end Stepwise
