import Mathlib.Algebra.GroupWithZero.Nat
import Stepwise.Proofs.History
import Stepwise.Proofs.Journal
import Stepwise.Proofs.Removals

/-!
# What blocks put after themselves

A condition that is answered puts the branch chosen after itself, and a loop that goes on puts its
body and its next pass there. It does so before it leaves, and it is current until it has left.
Where the host does not take back its reminder, or a callback of it fails, a condition stays current
and can be answered again, and then it puts a branch after itself once more. There is no other way
to this: the story of a sequence tells for each of its blocks where it came from, what it put after
itself and how often it failed to leave, and it did the first once more than the second at most.
-/

namespace Stepwise

variable {σ : Type}

/-- A reminder was not taken back, or a callback failed. -/
def Entry.isSetback : Entry → Bool
  | .asked (.removeReminder _) (.error _) | .asked (.hook _) (.error _) => true
  | _ => false

def setbacks (journal : List Entry) : Nat := journal.countP Entry.isSetback

theorem setbacks_cons (entry : Entry) (journal : List Entry) :
    setbacks (entry :: journal) = setbacks journal + if entry.isSetback then 1 else 0 :=
  List.countP_cons

theorem Onward.setbacks_le {first second : List Entry}
    (onward : Onward (fun _ => True) first second) : setbacks first ≤ setbacks second :=
  onward.suffix.sublist.countP_le

theorem Arrives.setbacks_le {address : List Nat} {first second : List Entry}
    (arrives : Arrives (fun _ => True) address first second) :
    setbacks first ≤ setbacks second := by
  cases arrives with
  | still onward => exact onward.setbacks_le
  | started onward =>
    exact Nat.le_trans onward.setbacks_le (List.sublist_cons_self _ _).countP_le

section

variable (services : Services σ) (w : World σ)

/-- An operation that only fails with a setback. -/
def Outcome.Setback {τ α : Type} (w : World σ) (o : Outcome σ τ α) : Prop :=
  o.Ends (fun _ _ v => setbacks w.journal ≤ setbacks v.journal)
    fun _ _ v => setbacks w.journal < setbacks v.journal

variable {w} in
theorem setback_of_asked {request : Request} {call : Except ServiceError Unit × World σ}
    (counts : ∀ e, (Entry.asked request (.error e)).isSetback = true)
    (noted : call.2.journal = .asked request call.1 :: w.journal) :
    Answered (fun _ v => setbacks w.journal ≤ setbacks v.journal)
      (fun _ v => setbacks w.journal < setbacks v.journal) call := by
  obtain ⟨answer, v⟩ := call
  have counted := (congrArg setbacks noted).trans (setbacks_cons _ _)
  cases answer with
  | ok _ => exact Nat.le.intro counted.symm
  | error e =>
    rw [counts e] at counted
    exact Nat.lt_of_lt_of_eq (Nat.lt_succ_self _) counted.symm

theorem LeaveHook.run_setback (hook : LeaveHook) :
    Answered (fun _ v => setbacks w.journal ≤ setbacks v.journal)
      (fun _ v => setbacks w.journal < setbacks v.journal) (hook.run services w) := by
  cases hook with
  | removeReminder id => exact setback_of_asked (fun _ => rfl) rfl
  | custom name failure => exact setback_of_asked (fun _ => rfl) rfl

theorem LeaveHook.runAll_setback (hooks : List LeaveHook) :
    (runAll services hooks w).Setback w := by
  induction hooks generalizing w with
  | nil => exact Nat.le_refl _
  | cons hook rest ih =>
    unfold runAll
    refine (hook.run_setback services w).elim (fun _ v kept => ?_) fun _ v more => more
    exact (ih v).mono (fun _ _ _ more => Nat.lt_of_le_of_lt kept more)
      fun _ _ _ kept' => Nat.le_trans kept kept'

theorem Block.discard_setback (b : Block) : (b.discard services w).Setback w := by
  have unregistered : (b.unregister services w).Setback w := by
    unfold unregister
    split
    · exact Nat.le_refl _
    · next id _ =>
      have removed : Answered (fun _ v => setbacks w.journal ≤ setbacks v.journal)
          (fun _ v => setbacks w.journal < setbacks v.journal) (w.removeReminder services id) :=
        setback_of_asked (fun _ => rfl) rfl
      exact removed.elim (fun _ _ kept => kept) fun _ _ more => more
  refine unregistered.bind (fun _ _ _ more => more) fun _ b v kept => ?_
  refine (LeaveHook.runAll_setback services v b.hooks).within
    (fun _ _ _ more => Nat.lt_of_le_of_lt kept more) fun _ _ _ kept' => Nat.le_trans kept kept'

/-- A condition that fails to leave has had a setback. -/
theorem Block.leave_setback {b : Block} (condition : b.isCondition = true) :
    (b.leave services w).Setback w := by
  have still : b.wrapUp services w = ⟨.ok (), b, w⟩ := by
    unfold isCondition at condition
    unfold wrapUp
    split <;> simp_all
  rw [leave, still]
  exact b.discard_setback services w

end

/-- The block may put these blocks after itself. -/
inductive Block.Unfolds (b : Block) : List Block → Prop
  | chosen {onYes onNo branch : List Template} (activity : b.activity = .condition onYes onNo)
      (one : branch = onYes ∨ branch = onNo) : b.Unfolds (b.handOn (branch.map ofTemplate)).2
  | again {loop : LoopKind} {body : List Template} (activity : b.activity = .asked loop body) :
      b.Unfolds (body.map ofTemplate ++ [b.successor (.asked loop body)])
  | pass {remaining : Int} {entered : Bool} {body : List Template}
      (activity : b.activity = .counted remaining entered body) (more : 0 < remaining) :
      b.Unfolds (body.map ofTemplate ++ [b.successor (.counted (remaining - 1) true body)])

/-- A block that has left, with all that it put after itself while it was current, the latest first,
and how often it failed to leave before it did. -/
structure Chapter where
  block : Block
  unfolded : List (List Block)
  setbacks : Nat

/-- A block puts something after itself once, and once more at most each time that it failed to
leave, which only conditions survive. -/
structure Chapter.Moderate (c : Chapter) : Prop where
  once : c.unfolded.length ≤ c.setbacks + 1
  condition : c.block.isCondition = false → c.setbacks = 0

/-- The story of a sequence that was put together from the blocks given: what the host has added,
the latest first, what has left, the latest first, what the current block has put after itself and
how often it has failed to leave, and what is ahead. -/
inductive Story (given : List Block) :
    List (List Block) → List Chapter → List (List Block) → Nat → List Block → Prop
  | beginning : Story given [] [] [] 0 given
  | ages {added : List (List Block)} {left : List Chapter} {unfolded : List (List Block)} {n : Nat}
      {b b' : Block} {rest : List Block} (story : Story given added left unfolded n (b :: rest))
      (ages : b.Ages b') : Story given added left unfolded n (b' :: rest)
  | unfolds {added : List (List Block)} {left : List Chapter} {unfolded : List (List Block)}
      {n : Nat} {b : Block} {rest new : List Block}
      (story : Story given added left unfolded n (b :: rest)) (unfolds : b.Unfolds new)
      (due : unfolded.length ≤ n) :
      Story given added left (new :: unfolded) n (b :: (new ++ rest))
  | fails {added : List (List Block)} {left : List Chapter} {unfolded : List (List Block)} {n : Nat}
      {b : Block} {rest : List Block} (story : Story given added left unfolded n (b :: rest))
      (condition : b.isCondition = true) : Story given added left unfolded (n + 1) (b :: rest)
  | leaves {added : List (List Block)} {left : List Chapter} {unfolded : List (List Block)}
      {n : Nat} {b : Block} {rest : List Block}
      (story : Story given added left unfolded n (b :: rest)) :
      Story given added (⟨b, unfolded, n⟩ :: left) [] 0 rest
  | pushed {added : List (List Block)} {left : List Chapter} {unfolded : List (List Block)}
      {n : Nat} {s : Sequence} (story : Story given added left unfolded n s.ahead) (c : Block) :
      Story given ([c] :: added) left unfolded n (s.push c).ahead
  | spliced {added : List (List Block)} {left : List Chapter} {unfolded : List (List Block)}
      {n : Nat} {s : Sequence} (story : Story given added left unfolded n s.ahead)
      (blocks : List Block) :
      Story given (blocks :: added) left unfolded n (s.splice blocks).ahead

namespace Story

variable {given : List Block} {added : List (List Block)} {left : List Chapter}
  {unfolded : List (List Block)} {n : Nat} {ahead : List Block}

/-- What is in a story is moderate. -/
theorem moderate (story : Story given added left unfolded n ahead) :
    (∀ c ∈ left, c.Moderate) ∧ unfolded.length ≤ n + 1 ∧
      (n ≠ 0 → ∃ b rest, ahead = b :: rest ∧ b.isCondition = true) := by
  induction story with
  | beginning => exact ⟨List.forall_mem_nil _, Nat.zero_le _, fun some => absurd rfl some⟩
  | @ages added left unfolded n b b' rest _ ages ih =>
    refine ⟨ih.1, ih.2.1, fun some => ?_⟩
    obtain ⟨_, _, same, condition⟩ := ih.2.2 some
    obtain ⟨rfl, rfl⟩ := List.cons.inj same
    exact ⟨b', rest, rfl, ages.isCondition.trans condition⟩
  | @unfolds added left unfolded n b rest new _ _ due ih =>
    refine ⟨ih.1, Nat.succ_le_succ due, fun some => ?_⟩
    obtain ⟨_, _, same, condition⟩ := ih.2.2 some
    obtain ⟨rfl, rfl⟩ := List.cons.inj same
    exact ⟨b, new ++ rest, rfl, condition⟩
  | @fails added left unfolded n b rest _ condition ih =>
    exact ⟨ih.1, Nat.le_succ_of_le ih.2.1, fun _ => ⟨b, rest, rfl, condition⟩⟩
  | @leaves added left unfolded n b rest _ ih =>
    refine ⟨List.forall_mem_cons.mpr ⟨⟨ih.2.1, fun none => ?_⟩, ih.1⟩, Nat.zero_le _,
      fun some => absurd rfl some⟩
    by_contra some
    obtain ⟨_, _, same, condition⟩ := ih.2.2 some
    obtain ⟨rfl, rfl⟩ := List.cons.inj same
    exact absurd (condition.symm.trans none) nofun
  | @pushed added left unfolded n s _ c ih =>
    refine ⟨ih.1, ih.2.1, fun some => ?_⟩
    obtain ⟨b, rest, now, condition⟩ := ih.2.2 some
    exact ⟨b, rest ++ [c], Sequence.ahead_push now c, condition⟩
  | @spliced added left unfolded n s _ blocks ih =>
    refine ⟨ih.1, ih.2.1, fun some => ?_⟩
    obtain ⟨b, rest, now, condition⟩ := ih.2.2 some
    exact ⟨b, blocks ++ rest, Sequence.ahead_splice now blocks, condition⟩

/-- What is ahead is a condition that can be answered, or it is no condition. -/
def Ready (ahead : List Block) (unfolded : List (List Block)) (n : Nat) (threads : List Thread) :
    Prop :=
  (∃ b rest, ahead = b :: rest ∧ b.isCondition = false) ∨ unfolded.length ≤ n ∧ threads = []

theorem Ready.cons {b : Block} {rest : List Block} {threads : List Thread}
    (condition : b.isCondition = true → unfolded.length ≤ n ∧ threads = []) :
    Ready (b :: rest) unfolded n threads := by
  cases same : b.isCondition with
  | false => exact Or.inl ⟨b, rest, rfl, same⟩
  | true => exact Or.inr (condition same)

theorem Ready.due {b : Block} {rest : List Block} {threads : List Thread}
    (ready : Ready (b :: rest) unfolded n threads) (condition : b.isCondition = true) :
    unfolded.length ≤ n ∧ threads = [] := by
  rcases ready with ⟨_, _, same, none⟩ | due
  · obtain ⟨rfl, rfl⟩ := List.cons.inj same
    exact absurd (condition.symm.trans none) nofun
  · exact due

theorem Ready.other {b : Block} {rest : List Block} {threads : List Thread}
    (ready : Ready (b :: rest) unfolded n threads) (some : threads ≠ []) :
    b.isCondition = false := by
  by_contra condition
  exact some (ready.due (by simpa using condition)).2

/-- The current block leaves, or it fails to and the sequence stays where it is. -/
theorem leave {b : Block} (story : Story given added left unfolded n (b :: ahead))
    (services : Services σ) {w : World σ}
    (limited : (left.map Chapter.setbacks).sum + n ≤ Stepwise.setbacks w.journal) :
    (b.leave services w).Ends
      (fun _ b' v => Story given added (⟨b', unfolded, n⟩ :: left) [] 0 ahead ∧
        (left.map Chapter.setbacks).sum + n ≤ Stepwise.setbacks v.journal)
      fun _ b' v => ∃ n', Story given added left unfolded n' (b' :: ahead) ∧
        (left.map Chapter.setbacks).sum + n' ≤ Stepwise.setbacks v.journal ∧
        Ready (b' :: ahead) unfolded n' [] := by
  have ages := b.leave_ages services w
  have kept : Stepwise.setbacks w.journal ≤ Stepwise.setbacks (b.leave services w).world.journal :=
    Onward.setbacks_le (b.leave_onward w)
  have setback := fun condition => Block.leave_setback services w (b := b) condition
  rcases left_over : b.leave services w with ⟨answer, b', v⟩
  rw [left_over] at ages kept setback
  cases answer with
  | ok _ => exact ⟨(story.ages ages).leaves, Nat.le_trans limited kept⟩
  | error e =>
    cases condition : b.isCondition with
    | false =>
      have none := ages.isCondition.trans condition
      exact ⟨n, story.ages ages, Nat.le_trans limited kept, Or.inl ⟨b', ahead, rfl, none⟩⟩
    | true =>
      have more : Stepwise.setbacks w.journal < Stepwise.setbacks v.journal := setback condition
      exact ⟨n + 1, (story.fails condition).ages ages,
        Nat.succ_le_of_lt (Nat.lt_of_le_of_lt limited more), Or.inr ⟨story.moderate.2.1, rfl⟩⟩

/-- A counted loop puts its pass after itself when it is entered. -/
theorem pass {b : Block} (story : Story given added left [] 0 (b :: ahead)) :
    ∃ unfolded, Story given added left unfolded 0 (b :: (b.pass ++ ahead)) := by
  have still : b.pass = [] →
      ∃ unfolded, Story given added left unfolded 0 (b :: (b.pass ++ ahead)) :=
    fun none => ⟨[], by rwa [none]⟩
  cases activity : b.activity with
  | counted remaining entered body =>
    by_cases more : 0 < remaining
    · refine ⟨[b.pass], story.unfolds ?_ (Nat.le_refl 0)⟩
      simp only [Block.pass, activity, more, if_true]
      exact .pass activity more
    · exact still (by simp only [Block.pass, activity, more, if_false])
  | _ => exact still (by simp only [Block.pass, activity])

end Story

def Activity.branches : Activity → List (List Template)
  | .parallel join => join.branches
  | _ => []

/-- The branch of the current group with this number. -/
def Sequence.branch (s : Sequence) (number : Nat) : List Template :=
  match s.ahead with
  | [] => []
  | b :: _ => b.activity.branches.getD number []

/-- The story of each sequence in the tree is told, and it is moderate. That of a thread starts with
the branch that it was made from, and the host has added nothing to it. The setbacks in all of it
are within the limit. -/
inductive Execution.Told (limit : Nat) : List Block → List (List Block) → Execution → Prop
  | intro {e : Execution} {given : List Block} {added : List (List Block)} {left : List Chapter}
      {unfolded : List (List Block)} {n : Nat}
      (story : Story given added left unfolded n e.ahead)
      (behind : left.map Chapter.block = e.behind)
      (moderate : ∀ c ∈ left, c.Moderate) (once : unfolded.length ≤ n + 1)
      (limited : (left.map Chapter.setbacks).sum + n ≤ limit)
      (ready : Story.Ready e.ahead unfolded n e.threads)
      (threads : ∀ t ∈ e.threads,
        Told limit ((e.branch t.branch).map Block.ofTemplate) [] t.execution) :
      Told limit given added e

theorem Execution.Told.of_story {limit : Nat} {e : Execution} {given : List Block}
    {added : List (List Block)} {left : List Chapter} {unfolded : List (List Block)} {n : Nat}
    (story : Story given added left unfolded n e.ahead)
    (behind : left.map Chapter.block = e.behind)
    (limited : (left.map Chapter.setbacks).sum + n ≤ limit)
    (ready : Story.Ready e.ahead unfolded n e.threads)
    (threads : ∀ t ∈ e.threads,
      t.execution.Told limit ((e.branch t.branch).map Block.ofTemplate) []) :
    e.Told limit given added :=
  .intro story behind story.moderate.1 story.moderate.2.1 limited ready threads

/-- The same for threads of a group with these branches. -/
def AllTold (limit : Nat) (branches : List (List Template)) (threads : List Thread) : Prop :=
  ∀ t ∈ threads, t.execution.Told limit ((branches.getD t.branch []).map Block.ofTemplate) []

theorem Execution.Told.mono {limit limit' : Nat} {given : List Block} {added : List (List Block)}
    {e : Execution} (told : e.Told limit given added) (more : limit ≤ limit') :
    e.Told limit' given added := by
  induction told with
  | intro story behind _ _ limited ready _ ih =>
    exact .of_story story behind (Nat.le_trans limited more) ready ih

theorem AllTold.mono {limit limit' : Nat} {branches : List (List Template)} {threads : List Thread}
    (told : AllTold limit branches threads) (more : limit ≤ limit') :
    AllTold limit' branches threads := fun t mem => (told t mem).mono more

theorem Block.Ages.branches {b b' : Block} (ages : b.Ages b') :
    b'.activity.branches = b.activity.branches := by
  have shaped : ∀ a : Activity, a.shape.branches = a.branches := fun a => by cases a <;> rfl
  have same : b'.activity.shape.branches = b.activity.shape.branches :=
    congrArg (·.activity.branches) ages.shape
  rwa [shaped, shaped] at same

theorem drop_split {all branches : List (List Template)} {templates : List Template} {first : Nat}
    (place : all.drop first = templates :: branches) :
    all.getD first [] = templates ∧ all.drop (first + 1) = branches := by
  constructor
  · rw [List.getD_eq_getElem?_getD, ← List.head?_drop, place]
    rfl
  · rw [← List.drop_drop, place]
    rfl

theorem allTold_threadsFrom (limit : Nat) {all branches : List (List Template)} (address : List Nat)
    (first : Nat) (place : all.drop first = branches) :
    AllTold limit all (threadsFrom address first branches) := by
  induction branches generalizing first with
  | nil => exact List.forall_mem_nil _
  | cons templates rest ih =>
    obtain ⟨here, later⟩ := drop_split place
    refine List.forall_mem_cons.mpr ⟨?_, ih (first + 1) later⟩
    simp only [here]
    exact .of_story .beginning rfl (Nat.zero_le _) (Or.inr ⟨Nat.le_refl 0, rfl⟩)
      (List.forall_mem_nil _)

section

variable (services : Services σ)

/-- The story is told of what is left of an execution. -/
def Execution.KeepsTold (given : List Block) (added : List (List Block))
    (o : Outcome σ Execution Unit) : Prop :=
  o.Ends (fun _ e w => e.Told (setbacks w.journal) given added)
    fun _ e w => e.Told (setbacks w.journal) given added

/-- The story is told on when the execution is entered. -/
def Execution.EntersTold (e : Execution) : Prop :=
  ∀ (w : World σ) (given : List Block) (added : List (List Block)) (left : List Chapter),
    Story given added left [] 0 e.ahead → left.map Chapter.block = e.behind →
    (left.map Chapter.setbacks).sum ≤ setbacks w.journal → e.threads = [] →
    KeepsTold given added (e.enter services w)

/-- What is left of a group is told about, and its branches are what they were. -/
def KeepsAllTold (all : List (List Template)) (j : Join) (o : Outcome σ (Join × List Thread) Bool) :
    Prop :=
  o.Ends (fun _ part w => part.1.branches = j.branches ∧ AllTold (setbacks w.journal) all part.2)
    fun _ part w => part.1.branches = j.branches ∧ AllTold (setbacks w.journal) all part.2

theorem Join.complete_told (j : Join) {all : List (List Template)} {others : List Thread}
    {w : World σ} (told : AllTold (setbacks w.journal) all others) :
    KeepsAllTold all j (j.complete services others w) := by
  have kept : setbacks w.journal ≤ setbacks (j.complete services others w).world.journal :=
    Onward.setbacks_le (j.complete_onward others w)
  obtain ⟨plan, sub⟩ := j.complete_keeps services others w
  have branches : (j.complete services others w).part.1.branches = j.branches := by
    have same := congrArg Join.branches plan
    exact same
  exact Outcome.Ends.of_left ⟨branches, fun t mem => (told t (sub.subset mem)).mono kept⟩

theorem startThreads_told {all branches : List (List Template)}
    (enters : ∀ templates ∈ branches, ∀ address,
      (startedThread address templates).EntersTold services)
    (address : List Nat) (first : Nat) (place : all.drop first = branches) {started : List Thread}
    (join : Join) {w : World σ} (told : AllTold (setbacks w.journal) all started) :
    KeepsAllTold all join
      (startThreads services (threadsFrom address first branches) started join w) := by
  induction branches generalizing first started join w with
  | nil =>
    rw [threadsFrom, startThreads]
    exact ⟨rfl, told⟩
  | cons templates rest ih =>
    obtain ⟨here, later⟩ := drop_split place
    have rest_enters := fun ts mem => enters ts (List.mem_cons_of_mem templates mem)
    have kept : setbacks w.journal ≤ setbacks
        ((startedThread (address ++ [first]) templates).enter services w).world.journal :=
      Onward.setbacks_le (Execution.enter_onward _ w)
    have entered := (enters templates List.mem_cons_self (address ++ [first]) w
      (templates.map Block.ofTemplate) [] [] .beginning rfl (Nat.zero_le _) rfl).left
    have waiting := fun limit => allTold_threadsFrom limit address (first + 1) later
    rw [startThreads_next]
    revert entered kept
    generalize (startedThread (address ++ [first]) templates).enter services w = o
    obtain ⟨answer, e, v⟩ := o
    intro kept entered
    have entered_here : AllTold (setbacks v.journal) all [⟨first, e⟩] :=
      List.forall_mem_singleton.mpr (by rw [here]; exact entered)
    have told := told.mono kept
    cases answer with
    | error error =>
      refine ⟨rfl, List.forall_mem_append.mpr ⟨told, ?_⟩⟩
      exact List.forall_mem_append.mpr ⟨entered_here, waiting _⟩
    | ok _ =>
      simp only [Outcome.bind_ok]
      split
      · have counted := join.complete_told services (List.forall_mem_append.mpr ⟨told, waiting _⟩)
        have further : setbacks v.journal ≤ setbacks (join.complete services
            (started ++ threadsFrom address (first + 1) rest) v).world.journal :=
          Onward.setbacks_le (join.complete_onward _ v)
        have grows := Outcome.Ends.of_left (P := fun _ u => setbacks v.journal ≤ setbacks u.journal)
          further
        refine (counted.and grows).bind (fun _ _ _ ends => ends.1) fun ended part u ends => ?_
        obtain ⟨⟨branches, all_told⟩, more⟩ := ends
        cases ended with
        | true => exact ⟨branches, all_told⟩
        | false =>
          have started_rest := ih rest_enters (first + 1) later part.1 (told.mono more)
          unfold KeepsAllTold at started_rest
          rwa [branches] at started_rest
      · exact ih rest_enters (first + 1) later join
          (List.forall_mem_append.mpr ⟨told, entered_here⟩)

/-- A group has told threads when it has arrived, and a condition has none. -/
theorem Block.arrive_told {b : Block}
    (enters : ∀ join, b.activity = .parallel join → ∀ templates ∈ join.branches, ∀ address,
      (startedThread address templates).EntersTold services) (address : List Nat) (w : World σ) :
    (b.isCondition = true → (Block.arrive services address b w).part.2 = []) ∧
      AllTold (setbacks (Block.arrive services address b w).world.journal) b.activity.branches
        (Block.arrive services address b w).part.2 := by
  cases activity : b.activity with
  | task | condition | asked =>
    rw [Block.arrive, activity]
    exact ⟨fun _ => rfl, List.forall_mem_nil _⟩
  | counted remaining entered body =>
    rw [Block.arrive_counted services address w activity]
    split <;> exact ⟨fun _ => rfl, List.forall_mem_nil _⟩
  | sleep s =>
    by_cases positive : 0 < s.value
    · rw [Block.arrive_asleep services address w activity positive]
      exact ⟨fun _ => rfl, List.forall_mem_nil _⟩
    · rw [Block.arrive_elapsed services address w activity positive]
      exact ⟨fun _ => rfl, List.forall_mem_nil _⟩
  | parallel join =>
    refine ⟨fun condition => by simp [isCondition, activity] at condition, ?_⟩
    by_cases none : join.branches = []
    · rw [Block.arrive_branchless services address w activity none]
      exact List.forall_mem_nil _
    · rw [Block.arrive_group services address w activity none]
      exact (startThreads_told services (enters join activity) address 0 rfl join.opened
        (List.forall_mem_nil _)).left.2

/-- What a block puts after itself when it reacts, if it does. -/
theorem Block.react_told (services : Services σ) {given : List Block} {added : List (List Block)}
    {left : List Chapter} {unfolded : List (List Block)} {n : Nat} {b : Block} {rest : List Block}
    (story : Story given added left unfolded n (b :: rest))
    (due : b.isCondition = true → unfolded.length ≤ n) (event : Event) (w : World σ) :
    (b.react services event w).Ends
      (fun reaction b' _ => ∃ unfolded',
        Story given added left unfolded' n (b' :: (reaction.after ++ rest)) ∧
          (reaction = .stay → unfolded' = unfolded))
      fun _ b' _ => Story given added left unfolded n (b' :: rest) := by
  have chosen : ∀ {onYes onNo branch : List Template}, b.activity = .condition onYes onNo →
      branch = onYes ∨ branch = onNo → ∃ unfolded', Story given added left unfolded' n
        ((b.handOn (branch.map ofTemplate)).1 :: ((b.handOn (branch.map ofTemplate)).2 ++ rest)) ∧
        (Reaction.leave (b.handOn (branch.map ofTemplate)).2 = .stay → unfolded' = unfolded) :=
    fun activity one => ⟨_, (story.unfolds (.chosen activity one)
      (due (by simp only [isCondition, activity]))).ages (b.handOn_ages _), nofun⟩
  have answered : ∀ {loop : LoopKind} {body : List Template} (yes : Bool),
      b.activity = .asked loop body → (b.answer loop body yes w).Ends
        (fun reaction b' _ => ∃ unfolded',
          Story given added left unfolded' n (b' :: (reaction.after ++ rest)) ∧
            (reaction = .stay → unfolded' = unfolded))
        fun _ b' _ => Story given added left unfolded n (b' :: rest) := by
    intro loop body yes activity
    unfold answer
    split
    · exact ⟨_, (story.unfolds (.again activity) (due (by simp only [isCondition, activity]))).ages
        (b.ages_of_handle none), nofun⟩
    · exact ⟨unfolded, story, nofun⟩
  have rewound : ∀ s : Sleep, b.activity = .sleep s → ∀ remaining,
      Story given added left unfolded n
        ({ b with activity := .sleep { s with remaining } } :: rest) :=
    fun s activity remaining => story.ages (ages_of_activity (by rw [activity]; rfl))
  unfold react
  split
  · exact ⟨unfolded, story, nofun⟩
  · next activity => exact chosen activity (Or.inl rfl)
  · next activity => exact chosen activity (Or.inr rfl)
  · next activity => exact answered true activity
  · next activity => exact answered false activity
  · next s activity => exact ⟨unfolded, rewound s activity _, fun _ => rfl⟩
  · next s activity => exact ⟨unfolded, rewound s activity _, nofun⟩
  · next s activity =>
    split
    · exact ⟨unfolded, rewound s activity _, nofun⟩
    · exact story
  · exact ⟨unfolded, story, fun _ => rfl⟩

theorem Sequence.finish_line (s : Sequence) (w : World σ) :
    ∃ handle finished, (s.finish services w).part = { s with handle, finished } := by
  unfold finish
  split
  · exact ⟨s.handle, s.finished, rfl⟩
  · refine Outcome.bind_part
      (P := fun part => ∃ handle finished, part = { s with handle, finished })
      ?_ fun _ _ => ?_
    all_goals
      unfold unregister
      split <;> exact ⟨_, _, rfl⟩

namespace Execution

variable {services} {w : World σ} {e : Execution} {given : List Block} {added : List (List Block)}
  {left : List Chapter} {unfolded : List (List Block)} {n : Nat} {b : Block} {rest : List Block}

/-- The current block leaves, and the blocks ahead are entered. -/
theorem leave_told_of {ahead : List Block}
    (story : Story given added left unfolded n (b :: ahead))
    (behind : left.map Chapter.block = e.behind)
    (limited : (left.map Chapter.setbacks).sum + n ≤ setbacks w.journal)
    (goes_on : ∀ left, EntersTold services ⟨e.advance left ahead, []⟩) :
    KeepsTold given added ((b.leave services w).bind
      (fun left => (⟨{ e.toSequence with ahead := left :: ahead }, []⟩ : Execution))
      fun _ left w => Execution.enter services ⟨e.advance left ahead, []⟩ (e.noteLeft left w)) := by
  refine (story.leave services limited).bind (fun _ b' v ends => ?_) fun _ b' v ends => ?_
  · obtain ⟨n', story', limited', ready⟩ := ends
    exact .of_story story' behind limited' ready (List.forall_mem_nil _)
  · obtain ⟨story', limited'⟩ := ends
    have noted : setbacks v.journal ≤ setbacks (e.noteLeft b' v).journal :=
      Onward.setbacks_le (e.noteLeft_onward b' v)
    refine goes_on b' (e.noteLeft b' v) given added _ story' ?_ ?_ rfl
    · rw [List.map_cons, behind]
      rfl
    · rw [List.map_cons, List.sum_cons, Nat.add_comm]
      exact Nat.le_trans limited' noted

/-- A current block with its threads, of which the story is told. -/
theorem told_here {limit : Nat} (story : Story given added left unfolded n (b :: rest))
    (behind : left.map Chapter.block = e.behind)
    (limited : (left.map Chapter.setbacks).sum + n ≤ limit)
    {threads : List Thread}
    (condition : b.isCondition = true → unfolded.length ≤ n ∧ threads = [])
    (told : AllTold limit b.activity.branches threads) :
    Told limit given added ⟨{ e.toSequence with ahead := b :: rest }, threads⟩ :=
  .of_story story behind limited (.cons condition) told

theorem end_told (now : e.ahead = []) : e.EntersTold services := by
  intro w given added left story behind limited none
  have kept : setbacks w.journal ≤ setbacks (e.enter services w).world.journal :=
    Onward.setbacks_le (e.enter_onward w)
  refine Outcome.Ends.of_left ?_
  rw [enter_end services w now] at kept ⊢
  obtain ⟨handle, finished, line⟩ := e.toSequence.finish_line services w
  have same_story : Story given added left [] 0 (e.toSequence.finish services w).part.ahead := by
    rw [line]
    exact story
  have same_behind : left.map Chapter.block = (e.toSequence.finish services w).part.behind := by
    rw [line]
    exact behind
  exact .of_story same_story same_behind (Nat.le_trans limited kept)
    (Or.inr ⟨Nat.le_refl 0, rfl⟩) (List.forall_mem_nil _)

theorem enter_told (e : Execution) : e.EntersTold services := by
  induction e using enter_induction with
  | nil e now => exact end_told now
  | cons e b rest now goes_on starts =>
    intro w given added left story behind limited none
    rw [now] at story
    have registering : setbacks w.journal ≤ setbacks (b.register services w).2.journal :=
      Onward.setbacks_le (b.register_onward w)
    rcases registered : b.register services w with ⟨answer, v⟩
    rw [registered] at registering
    have limited := Nat.le_trans limited registering
    cases answer with
    | error error =>
      rw [enter_refused services now registered]
      refine .of_story (now ▸ story) behind limited (Or.inr ⟨Nat.le_refl 0, none⟩) ?_
      rw [none]
      exact List.forall_mem_nil _
    | ok handle =>
      rw [enter_block services now registered]
      have arriving : (Block.arrive services e.address { b with handle } v).Ends
          (fun _ _ u => Arrives (fun _ => True) e.address v.journal u.journal)
          fun _ _ u => Onward (fun _ => True) v.journal u.journal :=
        Block.arrive_onward { b with handle } (fun _ _ _ _ _ => enter_onward _) v
      obtain ⟨alone, told⟩ := Block.arrive_told services (b := { b with handle }) starts e.address v
      have ages := (Block.arrive_evolves services (b := { b with handle })
        (fun _ _ _ _ _ => enter_evolves services _) e.address v).1
      revert arriving alone told ages
      generalize Block.arrive services e.address { b with handle } v = o
      obtain ⟨answer, ⟨arrived, threads⟩, u⟩ := o
      intro arriving alone told ages
      have condition : arrived.isCondition = true →
          ([] : List (List Block)).length ≤ 0 ∧ threads = [] :=
        fun same => ⟨Nat.le_refl 0, alone (ages.isCondition.symm.trans same)⟩
      have passing := (story.ages (b.ages_of_handle handle))
      rw [← ages.branches] at told
      cases answer with
      | error error =>
        have arriving : Onward (fun _ => True) v.journal u.journal := arriving
        exact told_here (passing.ages ages) behind (Nat.le_trans limited arriving.setbacks_le)
          condition told
      | ok leaves =>
        have arriving : Arrives (fun _ => True) e.address v.journal u.journal := arriving
        have noted : Onward (fun _ => True) u.journal (e.noteEntered arrived u).journal :=
          .aside trivial .refl
        have limited := Nat.le_trans limited (Nat.le_trans arriving.setbacks_le noted.setbacks_le)
        cases leaves with
        | false =>
          simp only [Outcome.bind_ok, Bool.false_eq_true, if_false]
          exact told_here (passing.ages ages) behind limited condition (told.mono noted.setbacks_le)
        | true =>
          obtain ⟨unfolded, passed⟩ := passing.pass
          exact leave_told_of (passed.ages ages) behind limited fun left => goes_on left handle

/-- Leaving is the same whatever is ahead of the execution. -/
theorem leave_told {ahead line : List Block} {threads : List Thread}
    (story : Story given added left unfolded n (b :: ahead))
    (behind : left.map Chapter.block = e.behind)
    (limited : (left.map Chapter.setbacks).sum + n ≤ setbacks w.journal)
    (condition : b.isCondition = true → threads = []) :
    KeepsTold given added
      (leave services b ahead ⟨{ e.toSequence with ahead := line }, threads⟩ w) := by
  have kept : setbacks w.journal ≤ setbacks (cancelThreads services threads w).world.journal :=
    Onward.setbacks_le (cancelThreads_onward threads w)
  have limited := Nat.le_trans limited kept
  have fails : b.isCondition = true → (cancelThreads services threads w).result = .ok () := by
    intro same
    rw [condition same, cancelThreads]
  unfold leave
  simp only
  revert limited fails
  generalize cancelThreads services threads w = o
  obtain ⟨answer, -, v⟩ := o
  intro limited fails
  cases answer with
  | ok _ => exact leave_told_of story behind limited fun left => enter_told _
  | error error =>
    exact told_here story behind limited (fun same => nomatch fails same) (List.forall_mem_nil _)

theorem afterThread_told {before after : List Thread} {join : Join} {t : Thread}
    (story : Story given added left unfolded n (b :: rest))
    (behind : left.map Chapter.block = e.behind)
    (limited : (left.map Chapter.setbacks).sum + n ≤ setbacks w.journal)
    (now : e.ahead = b :: rest) (group : b.join? = some join)
    (told : AllTold (setbacks w.journal) b.activity.branches (before ++ t :: after)) :
    KeepsTold given added (e.afterThread services b rest join before after t w) := by
  have activity := Block.activity_of_join? group
  have other : ∀ join : Join, ({ b with activity := .parallel join } : Block).isCondition = false :=
    fun _ => rfl
  unfold afterThread
  simp only
  split
  · have others : AllTold (setbacks w.journal) join.branches (before ++ after) := by
      rw [activity] at told
      have kept := (List.sublist_cons_self t after).append_left before
      exact fun s mem => told s (kept.subset mem)
    have kept : setbacks w.journal ≤
        setbacks (join.complete services (before ++ after) w).world.journal :=
      Onward.setbacks_le (join.complete_onward _ w)
    have completed := (join.complete_told services others).left
    have plan := (join.complete_keeps services (before ++ after) w).1
    revert completed kept plan
    generalize join.complete services (before ++ after) w = o
    obtain ⟨answer, ⟨counted, threads⟩, v⟩ := o
    intro kept completed plan
    obtain ⟨same, all_told⟩ := completed
    have ages : b.Ages { b with activity := .parallel counted } := by
      refine Block.ages_of_activity ?_
      rw [activity]
      exact congrArg Activity.parallel plan
    have limited := Nat.le_trans limited kept
    have regrouped : Told (setbacks v.journal) given added ⟨{ e.toSequence with
        ahead := { b with activity := .parallel counted } :: rest }, threads⟩ := by
      refine told_here (story.ages ages) behind limited (fun condition => ?_) ?_
      · exact absurd (condition.symm.trans (other counted)) nofun
      · rw [← same] at all_told
        exact all_told
    cases answer with
    | error error => exact regrouped
    | ok ended =>
      cases ended with
      | false => exact regrouped
      | true =>
        exact leave_told (story.ages ages) behind limited fun condition =>
          absurd (condition.symm.trans (other counted)) nofun
  · have other : b.isCondition = false := by simp only [Block.isCondition, activity]
    refine .of_story (now ▸ story) behind limited (Or.inl ⟨b, rest, now, other⟩) ?_
    · simp only [Sequence.branch, now]
      exact told

/-- The current block takes the event. -/
theorem dispatch_here_told (told : e.Told (setbacks w.journal) given added)
    (running : e.isRunning = true) (now : e.ahead = b :: rest) (event : Event) :
    KeepsTold given added (e.dispatch services event [] w) := by
  obtain ⟨story, behind, -, -, limited, ready, threads⟩ := told
  rw [now] at story ready
  simp only [Sequence.branch, now] at threads
  have all_told : AllTold (setbacks w.journal) b.activity.branches e.threads := threads
  have reacting : Onward (fun _ => True) w.journal (b.react services event w).world.journal :=
    b.react_onward (fun _ => trivial) w
  have reacted := Block.react_told services story
    (fun condition => (ready.due condition).1) event w
  have ages := b.react_ages services event w
  have same : (b.react services event w).part.isCondition = b.isCondition := ages.isCondition
  rw [← ages.branches] at all_told
  rw [dispatch_here running now]
  rcases result : b.react services event w with ⟨answer, b', v⟩
  rw [result] at reacting reacted same all_told
  have all_told := all_told.mono reacting.setbacks_le
  have limited := Nat.le_trans limited reacting.setbacks_le
  have due := fun condition => ready.due (same.symm.trans condition)
  cases answer with
  | error error => exact told_here reacted behind limited due all_told
  | ok reaction =>
    obtain ⟨unfolded, story, unchanged⟩ := reacted
    cases reaction with
    | stay =>
      rw [unchanged rfl] at story
      have story : Story given added _ _ _ (b' :: rest) := story
      exact told_here story behind limited due all_told
    | leave after => exact leave_told story behind limited fun condition => (due condition).2

theorem dispatch_told (told : e.Told (setbacks w.journal) given added) (event : Event)
    (path : List Nat) : KeepsTold given added (e.dispatch services event path w) := by
  induction depth : path.length using Nat.strongRecOn generalizing path e given added with
  | ind n ih =>
  subst depth
  refine dispatch_cases path (fun notice => ?_) ?here ?thread
  case here =>
    intro b rest running now
    rw [← dispatch_here running now]
    exact dispatch_here_told told running now event
  case thread =>
    intro b rest join before t after further running now group threads less
    have t_told : t.execution.Told (setbacks w.journal)
        ((e.branch t.branch).map Block.ofTemplate) [] := by
      obtain ⟨-, -, -, -, -, -, inside⟩ := told
      exact inside t (by simp [threads])
    have moved := (ih _ less t_told further rfl).left
    have kept : setbacks w.journal ≤
        setbacks (t.execution.dispatch services event further w).world.journal :=
      Onward.setbacks_le (dispatch_onward _ _ _ _)
    rcases result : t.execution.dispatch services event further w with ⟨answer, x, v⟩
    rw [result] at moved kept
    obtain ⟨story, behind, -, -, limited, ready, inside⟩ := told
    have limited := Nat.le_trans limited kept
    simp only [Sequence.branch, now] at inside moved
    have all_told : AllTold (setbacks w.journal) b.activity.branches e.threads := inside
    have replaced : AllTold (setbacks v.journal) b.activity.branches
        (before ++ { t with execution := x } :: after) := by
      have others := all_told.mono kept
      rw [threads] at others
      obtain ⟨front, back⟩ := List.forall_mem_append.mp others
      exact List.forall_mem_append.mpr
        ⟨front, List.forall_mem_cons.mpr ⟨moved, (List.forall_mem_cons.mp back).2⟩⟩
    rw [now] at story ready
    cases answer with
    | error error =>
      have other := ready.other (by simp [threads])
      refine .of_story (now ▸ story) behind limited (Or.inl ⟨b, rest, now, other⟩) ?_
      simp only [Outcome.bind, Sequence.branch, now]
      exact replaced
    | ok _ => exact afterThread_told story behind limited now group replaced
  have noted : setbacks w.journal ≤ setbacks (w.passOver notice).journal :=
    Onward.setbacks_le (.aside trivial .refl)
  exact told.mono noted

/-- New blocks are put among those ahead, behind the current one if there is one. -/
theorem Told.extend {limit : Nat} {added' : List (List Block)} {ahead : List Block}
    (told : e.Told limit given added)
    (further : ∀ {left unfolded n}, Story given added left unfolded n e.ahead →
      Story given added' left unfolded n ahead)
    (current : ∀ b rest, e.ahead = b :: rest → ∃ rest', ahead = b :: rest') :
    Told limit given added' { e with ahead } := by
  obtain ⟨story, behind, -, -, limited, ready, threads⟩ := told
  refine .of_story (further story) behind limited ?_ ?_
  · rcases ready with ⟨b, rest, now, other⟩ | due
    · obtain ⟨rest', same⟩ := current b rest now
      exact Or.inl ⟨b, rest', same, other⟩
    · exact Or.inr due
  · intro t mem
    cases now : e.ahead with
    | nil =>
      rcases ready with ⟨b, rest, now', -⟩ | ⟨-, none⟩
      · exact nomatch now.symm.trans now'
      · have mem : t ∈ e.threads := mem
        rw [none] at mem
        cases mem
    | cons b rest =>
      obtain ⟨rest', rfl⟩ := current b rest now
      have t_told := threads t mem
      simp only [Sequence.branch, now] at t_told
      exact t_told

theorem Told.thread? {limit : Nat} {path : List Nat} {x : Execution}
    (told : e.Told limit given added) (found : e.thread? path = some x) :
    ∃ given added, x.Told limit given added := by
  induction path generalizing e given added with
  | nil =>
    cases found
    exact ⟨given, added, told⟩
  | cons branch path ih =>
    obtain ⟨t, mem, -, -, inside⟩ := thread?_found found
    obtain ⟨-, -, -, -, -, -, threads⟩ := told
    exact ih (threads t mem) inside

end Execution

end

namespace Run

variable {services : Services σ} {r : Run σ} {given : List Block} {added : List (List Block)}

/-- The story of the root is told, and before the start nothing has happened in it. -/
structure Telling (given : List Block) (added : List (List Block)) (r : Run σ) : Prop where
  inOrder : r.InOrder
  told : r.root.Told (setbacks r.world.journal) given added
  unstarted : r.root.started = false →
    Story given added [] [] 0 r.root.ahead ∧ r.root.behind = []

theorem begin_told {e : Execution} {w : World σ} (none : e.threads = [])
    (story : Story given added [] [] 0 e.ahead) (behind : e.behind = []) :
    (begin services e w).part.Told (setbacks (begin services e w).world.journal) given added := by
  have enters : ∀ (handle : Option Nat) (v : World σ), Execution.KeepsTold given added
      (Execution.enter services { e with started := true, handle } v) := fun handle v =>
    Execution.enter_told _ v given added [] story behind.symm (Nat.zero_le _) none
  unfold begin
  simp only
  split
  · split
    · refine .of_story story behind.symm (Nat.zero_le _)
        (Or.inr ⟨Nat.le_refl 0, none⟩) fun t mem => ?_
      have mem : t ∈ e.threads := mem
      rw [none] at mem
      cases mem
    · exact (enters (some _) _).left
  · exact (enters e.handle w).left

variable (services) in
theorem telling_perform (telling : r.Telling given added) (call : Call) :
    (r.perform services call).Telling given (call.added?.toList ++ added) := by
  have inOrder := inOrder_perform services r call telling.inOrder
  have unstarted := unstarted_before services telling.inOrder call
  have kept : setbacks r.world.journal ≤ setbacks (r.perform services call).world.journal :=
    Onward.setbacks_le (r.perform_onward services call)
  obtain ⟨in_order, told, before⟩ := telling
  cases call with
  | start =>
    cases started : r.root.started with
    | true =>
      simp only [perform, start, started, if_true] at inOrder ⊢
      exact ⟨inOrder, told, before⟩
    | false =>
      obtain ⟨story, behind⟩ := before started
      have none := (in_order.unstarted started).threads
      have now_started := (begin_evolves services none r.world).2
      simp only [perform, start, started, Bool.false_eq_true, if_false] at inOrder ⊢
      refine ⟨inOrder, begin_told none story behind, fun still => ?_⟩
      exact absurd (still.symm.trans now_started) Bool.false_ne_true
  | dispatch path event =>
    refine ⟨inOrder, (Execution.dispatch_told told event path).left, fun still => ?_⟩
    rw [root_perform_dispatch services (unstarted still)]
    exact before (unstarted still)
  | push block =>
    refine ⟨inOrder, told.extend (fun story => story.pushed block.block) ?_, fun still => ?_⟩
    · intro b rest now
      exact ⟨_, Sequence.ahead_push now block.block⟩
    · exact ⟨(before still).1.pushed block.block, (before still).2⟩
  | splice blocks =>
    have current (b : Block) (rest : List Block) (now : r.root.ahead = b :: rest) :
        ∃ rest', (r.root.toSequence.splice (blocks.map HostBlock.block)).ahead = b :: rest' :=
      ⟨_, Sequence.ahead_splice now _⟩
    rw [perform, splice, Sequence.splice_eq] at inOrder ⊢
    refine ⟨inOrder, told.extend (fun story => story.spliced _) current, fun still => ?_⟩
    exact ⟨(before still).1.spliced _, (before still).2⟩
  | requestPause => exact ⟨inOrder, told.mono kept, before⟩
  | releasePause token => exact ⟨inOrder, told.mono kept, before⟩

theorem telling_after (telling : r.Telling given added) (calls : List Call) :
    (r.after services calls).Telling given ((calls.filterMap Call.added?).reverse ++ added) := by
  induction calls generalizing r added with
  | nil => exact telling
  | cons call calls ih =>
    have further := ih (telling_perform services telling call)
    cases same : call.added? with
    | none =>
      rw [List.filterMap_cons_none same]
      rwa [same] at further
    | some blocks =>
      rw [List.filterMap_cons_some same, List.reverse_cons, List.append_assoc]
      rwa [same] at further

theorem Fresh.telling {blocks : List HostBlock} (fresh : r.Fresh blocks) :
    r.Telling (blocks.map HostBlock.block) [] := by
  have inOrder := fresh.inOrder
  obtain ⟨description, reminder, root⟩ := fresh.root
  have story : Story (blocks.map HostBlock.block) [] [] [] 0 r.root.ahead := by
    rw [root]
    exact .beginning
  have behind : r.root.behind = [] := by
    rw [root]
    rfl
  have none : r.root.threads = [] := by
    rw [root]
    rfl
  refine ⟨inOrder, .of_story story behind.symm (Nat.zero_le _) (Or.inr ⟨Nat.le_refl 0, none⟩)
    ?_, fun _ => ⟨story, behind⟩⟩
  rw [none]
  exact List.forall_mem_nil _

/-- In every state that calls can lead to, whatever the host refused and whichever callbacks failed:
every block of every sequence was given, or added by the host, or put there by a block before it
that might do so, and none has done so more than once and once for each time that it failed to
leave. That happens only to conditions, and altogether not more often than the host refused to take
back a reminder or a callback failed. What a thread does last, before it is taken off its group, is
told in the same way. -/
theorem unfolded_once {blocks : List HostBlock} (fresh : r.Fresh blocks) (calls : List Call) :
    let now := r.after services calls
    now.root.Told (setbacks now.world.journal) (blocks.map HostBlock.block)
        (calls.filterMap Call.added?).reverse ∧
      ∀ path x, now.root.thread? path = some x → ∃ given added,
        x.Told (setbacks now.world.journal) given added ∧
        ∀ event deeper, let o := x.dispatch services event deeper now.world
          o.part.Told (setbacks o.world.journal) given added := by
  have telling : (r.after services calls).Telling _ _ := telling_after fresh.telling calls
  rw [List.append_nil] at telling
  refine ⟨telling.told, fun path x found => ?_⟩
  obtain ⟨given, added, told⟩ := telling.told.thread? found
  exact ⟨given, added, told, fun event deeper => (Execution.dispatch_told told event deeper).left⟩

/-- A loop in a branch. -/
def gravy : Run InMemory :=
  .ofWorkflow ⟨"gravy", none, none, [.parallel "meanwhile" 2
    [[.asked "thicker?" .whileYes [.task "stir"]], [.task "carve"]]]⟩ .empty

/-- The callback of the condition fails when it is answered, and it waits for an answer again. -/
theorem unfolded_once_gravy :
    let calls : List Call := [.start,
      .push ⟨.condition "pour?" [.task "pour"] [], [("bell", some (.timer "no bell"))]⟩,
      .dispatch [0] .yes, .dispatch [0] .done, .dispatch [0] .no, .dispatch [1] .done,
      .dispatch [] .yes]
    let now := gravy.after InMemory.services calls
    (now.root.blocks.map (·.text) = ["meanwhile", "pour?", "pour"] ∧ now.root.cursor = 1 ∧
      setbacks now.world.journal = 1) ∧
    now.root.Told (setbacks now.world.journal)
        ([Template.parallel "meanwhile" 2 [[.asked "thicker?" .whileYes [.task "stir"]],
          [.task "carve"]]].map fun t => (HostBlock.plain t).block)
        (calls.filterMap Call.added?).reverse ∧
      ∀ path x, now.root.thread? path = some x → ∃ given added,
        x.Told (setbacks now.world.journal) given added ∧
        ∀ event deeper, let o := x.dispatch InMemory.services event deeper now.world
          o.part.Told (setbacks o.world.journal) given added :=
  ⟨by decide +kernel, unfolded_once (fresh_ofWorkflow _ _) _⟩

/-- A condition in a condition, the first of them with a reminder that is running until the branch
of the second is over. -/
def broth : Run InMemory :=
  .ofWorkflow ⟨"broth", none, none, [(Template.condition "salt?"
    [.condition "more?" [.task "add"] []] []).withReminder ⟨2, .minutes⟩]⟩ .empty

/-- The host does not take the reminder back when the second condition leaves. Answered again, it
puts its branch after itself once more. -/
theorem broth_doubled :
    let failing (now : Bool) (m : InMemory) : InMemory :=
      { m with reminders := { m.reminders with failing := now } }
    let asking := broth.after InMemory.services [.start, .dispatch [] .yes]
    let refused := ((asking.changeHost (failing true)).perform InMemory.services
      (.dispatch [] .yes)).changeHost (failing false)
    let answered := refused.perform InMemory.services (.dispatch [] .yes)
    asking.root.blocks.map (·.text) = ["salt?", "more?"] ∧
      (refused.root.blocks.map (·.text) = ["salt?", "more?", "add"] ∧ refused.root.cursor = 1) ∧
      answered.root.blocks.map (·.text) = ["salt?", "more?", "add", "add"] ∧
        answered.root.cursor = 2 := by
  decide +kernel

end Run

end Stepwise
