import Stepwise.Proofs.Entering

/-!
# Where entering comes to rest

A sequence that is entered either runs out at once or waits for an event. Waiting is meant for the
whole tree of threads: each has a current block that takes an event or is a group with open threads.
Which of the two happens is told by the blocks alone, and the effort, which bounds the events that
are still needed, does not grow on the way.
-/

namespace Stepwise

/-- How many of a group's threads are to finish: the number that it asks for, or all of them if it
has no such number. -/
def joinTarget (choose branches : Nat) : Nat :=
  if 1 ≤ choose ∧ choose ≤ branches then choose else branches

def Join.target (j : Join) : Nat := joinTarget j.choose j.branches.length

theorem joinTarget_le (choose branches : Nat) : joinTarget choose branches ≤ branches := by
  unfold joinTarget
  split <;> omega

theorem joinTarget_pos {choose branches : Nat} (some_branch : 0 < branches) :
    0 < joinTarget choose branches := by
  unfold joinTarget
  split <;> omega

theorem Join.target_branchless {j : Join} (none : j.branches = []) : j.target = 0 := by
  have le := joinTarget_le j.choose j.branches.length
  rw [none, List.length_nil] at le
  rw [target, none]
  exact Nat.le_zero.mp le

/-- With `others` threads left, the test that a group makes is whether its target is reached. -/
theorem Join.ends_iff {j : Join} (others : Nat)
    (total : j.completed + (1 + others) = j.branches.length) (short : j.completed < j.target) :
    (others = 0 ∨ j.completed + 1 = j.choose) ↔ j.completed + 1 = j.target := by
  unfold target joinTarget at *
  split at short <;> split <;> omega

mutual

/-- The template waits for nothing. -/
def Template.isInstant : Template → Bool
  | ⟨kind, _, _, _⟩ => kind.isInstant

def TemplateKind.isInstant : TemplateKind → Bool
  | .counted times body => decide (times.toInt ≤ 0) || allInstant body
  | .sleep value _ _ _ => decide (¬ 0 < value)
  | .parallel _ choose branches =>
    decide (joinTarget choose.toNat branches.length ≤ instantBranches branches)
  | _ => false

def allInstant : List Template → Bool
  | [] => true
  | t :: rest => t.isInstant && allInstant rest

def instantBranches : List (List Template) → Nat
  | [] => 0
  | branch :: rest => (if allInstant branch then 1 else 0) + instantBranches rest

end

def Block.isInstant (b : Block) : Bool :=
  match b.activity with
  | .counted remaining _ body => decide (remaining ≤ 0) || allInstant body
  | .sleep s => decide (¬ 0 < s.value)
  | .parallel join => decide (join.target ≤ instantBranches join.branches)
  | _ => false

theorem Block.isInstant_ofTemplate (t : Template) : (ofTemplate t).isInstant = t.isInstant := by
  obtain ⟨kind, id, image, reminder⟩ := t
  cases kind <;> rfl

theorem all_isInstant_ofTemplates (ts : List Template) :
    (ts.map Block.ofTemplate).all Block.isInstant = allInstant ts := by
  induction ts with
  | nil => rfl
  | cons t rest ih => simp [allInstant, Block.isInstant_ofTemplate, ih]

theorem Block.Waits.not_instant {b : Block} (waits : b.Waits) : b.isInstant = false := by
  unfold Waits at waits
  unfold isInstant
  split at waits <;> simp_all

mutual

/-- Bounds the events that a run needs for a template when every loop is left at its first
question. -/
def Template.effort : Template → Nat
  | ⟨kind, _, _, _⟩ => kind.effort

def TemplateKind.effort : TemplateKind → Nat
  | .condition _ onYes onNo => 1 + effortAll onYes + effortAll onNo
  | .counted times body => 1 + times.toInt.toNat * (1 + effortAll body)
  | .parallel _ _ branches => 1 + effortBranches branches
  | _ => 1

def effortAll : List Template → Nat
  | [] => 0
  | t :: rest => t.effort + effortAll rest

def effortBranches : List (List Template) → Nat
  | [] => 0
  | branch :: rest => effortAll branch + effortBranches rest

end

def Block.effort (b : Block) : Nat :=
  match b.activity with
  | .condition onYes onNo => 1 + effortAll onYes + effortAll onNo
  | .counted remaining _ body => 1 + remaining.toNat * (1 + effortAll body)
  | .parallel join => 1 + effortBranches join.branches
  | _ => 1

def blocksEffort : List Block → Nat
  | [] => 0
  | b :: rest => b.effort + blocksEffort rest

@[simp]
theorem blocksEffort_append (first second : List Block) :
    blocksEffort (first ++ second) = blocksEffort first + blocksEffort second := by
  induction first with
  | nil => simp [blocksEffort]
  | cons b rest ih => simp [blocksEffort, ih, Nat.add_assoc]

theorem Block.effort_ofTemplate (t : Template) : (ofTemplate t).effort = t.effort := by
  obtain ⟨kind, id, image, reminder⟩ := t
  cases kind <;> simp [ofTemplate, effort, Template.effort, TemplateKind.effort]

@[simp]
theorem blocksEffort_ofTemplates (ts : List Template) :
    blocksEffort (ts.map Block.ofTemplate) = effortAll ts := by
  induction ts with
  | nil => rfl
  | cons t rest ih => simp [blocksEffort, effortAll, Block.effort_ofTemplate, ih]

theorem Block.effort_pos (b : Block) : 0 < b.effort := by
  unfold effort
  split <;> omega

/-- The effort of a current block, given that of its threads. -/
def Block.toil (b : Block) (threads : Nat) : Nat :=
  match b.activity with
  | .parallel _ => 1 + threads
  | _ => b.effort

mutual

/-- The effort that is left to an execution whose current block has been entered. -/
def Execution.toil : Execution → Nat
  | ⟨line, threads⟩ =>
    match line.ahead with
    | [] => 0
    | b :: rest => b.toil (toilAll threads) + blocksEffort rest

def toilAll : List Thread → Nat
  | [] => 0
  | ⟨_, execution⟩ :: rest => execution.toil + toilAll rest

end

theorem toilAll_cons (t : Thread) (rest : List Thread) :
    toilAll (t :: rest) = t.execution.toil + toilAll rest := by
  obtain ⟨branch, execution⟩ := t
  rw [toilAll]

/-- A group between two calls: its threads are some of its branches, in order, and all others have
finished, which are too few to end it. -/
structure Join.Open (j : Join) (threads : List Thread) : Prop where
  increasing : threads.Pairwise fun s t => s.branch < t.branch
  bounded : ∀ t ∈ threads, t.branch < j.branches.length
  total : j.completed + threads.length = j.branches.length
  short : j.completed < j.target
  undone : j.done = false

theorem Join.Open.ne_nil {j : Join} {threads : List Thread} (h : j.Open threads) :
    threads ≠ [] := by
  intro none
  have total := h.total
  have short := h.short
  have le := joinTarget_le j.choose j.branches.length
  rw [none, List.length_nil] at total
  unfold target at short
  omega

/-- The block has been entered, has these threads, and takes an event itself or through them. -/
def Block.Hosts (b : Block) (threads : List Thread) : Prop :=
  match b.activity with
  | .task | .condition _ _ | .asked _ _ => threads = []
  | .sleep s => 0 < s.value ∧ threads = []
  | .parallel join => join.Open threads
  | .counted _ _ _ => False

mutual

def Execution.Settled : Execution → Prop
  | ⟨line, threads⟩ =>
    line.isRunning = true ∧ (∃ b rest, line.ahead = b :: rest ∧ b.Hosts threads) ∧
      settledAll threads

def settledAll : List Thread → Prop
  | [] => True
  | ⟨_, execution⟩ :: rest => execution.Settled ∧ settledAll rest

end

theorem settledAll_forall (threads : List Thread) :
    settledAll threads ↔ ∀ t ∈ threads, t.execution.Settled := by
  induction threads with
  | nil => simp [settledAll]
  | cons t rest ih =>
    obtain ⟨branch, execution⟩ := t
    simp [settledAll, ih]

theorem settledAll_cons (t : Thread) (rest : List Thread) :
    settledAll (t :: rest) ↔ t.execution.Settled ∧ settledAll rest := by
  obtain ⟨branch, execution⟩ := t
  rw [settledAll]

theorem Sequence.unfinished_of_running {s : Sequence} (running : s.isRunning = true) :
    s.finished = false := by
  simp only [isRunning, Bool.and_eq_true, Bool.not_eq_true'] at running
  exact running.1.2

namespace Execution

theorem settled_iff (e : Execution) :
    e.Settled ↔ e.isRunning = true ∧ (∃ b rest, e.ahead = b :: rest ∧ b.Hosts e.threads) ∧
      ∀ t ∈ e.threads, t.execution.Settled := by
  obtain ⟨line, threads⟩ := e
  rw [Settled, settledAll_forall]

theorem Settled.isRunning {e : Execution} (h : e.Settled) : e.isRunning = true :=
  ((settled_iff e).mp h).1

theorem Settled.unfinished {e : Execution} (h : e.Settled) : e.finished = false :=
  Sequence.unfinished_of_running h.isRunning

theorem toil_cons {e : Execution} {b : Block} {rest : List Block} (ahead : e.ahead = b :: rest) :
    e.toil = b.toil (toilAll e.threads) + blocksEffort rest := by
  obtain ⟨line, threads⟩ := e
  simp only [toil]
  simp only at ahead
  rw [ahead]

theorem Settled.toil_pos {e : Execution} (h : e.Settled) : 0 < e.toil := by
  obtain ⟨-, ⟨b, rest, ahead, -⟩, -⟩ := (settled_iff e).mp h
  rw [toil_cons ahead]
  have positive := b.effort_pos
  unfold Block.toil
  split <;> omega

/-- The sequence has run out. -/
structure Over (e : Execution) : Prop where
  finished : e.finished = true
  ahead : e.ahead = []
  threads : e.threads = []

end Execution

theorem Block.Waits.hosts {b b' : Block} (waits : b.Waits) (plan : b'.plan = b.plan) :
    b'.Hosts [] := by
  obtain ⟨id, image, reminder, handle, hooks, text, activity⟩ := b
  obtain ⟨id', image', reminder', handle', hooks', text', activity'⟩ := b'
  have same : activity'.plan = activity.plan := congrArg Block.activity plan
  cases activity <;> cases activity' <;>
    simp_all [Waits, Hosts, Activity.plan, Sleep.plan, Sleep.fresh]

theorem Block.Waits.toil {b b' : Block} (waits : b.Waits) (plan : b'.plan = b.plan) (n : Nat) :
    b'.toil n = b.effort := by
  obtain ⟨id, image, reminder, handle, hooks, text, activity⟩ := b
  obtain ⟨id', image', reminder', handle', hooks', text', activity'⟩ := b'
  have same : activity'.plan = activity.plan := congrArg Block.activity plan
  cases activity <;> cases activity' <;> simp_all [Waits, Block.toil, effort, Activity.plan]

end Stepwise
