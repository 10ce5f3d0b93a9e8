import Mathlib.Data.Bool.Basic
import Stepwise.Proofs.Settling

/-!
# Waits that share one countdown

The board of a session runs one countdown at a time, and a wait that starts takes the place of one
that still runs elsewhere. Without the permission to skip waits only the running countdown ends its
wait, so that the other one can never end. Whether a run can be brought to its end is told by its
tree and by the route of the running countdown, and for what lies ahead by the templates alone: how
far entering goes in one call, and whether a countdown is set on the way.
-/

namespace Stepwise

mutual

/-- A countdown is set in the call that enters the template. -/
def Template.sets : Template → Bool
  | ⟨kind, _, _, _⟩ => kind.sets

def TemplateKind.sets : TemplateKind → Bool
  | .counted times body => decide (0 < times.toInt) && allSet body
  | .sleep value _ _ _ => decide (0 < value)
  | .parallel _ choose branches =>
    branchesSet (joinTarget choose.toNat branches.length) branches
  | _ => false

/-- A sequence is entered up to the first template that waits. -/
def allSet : List Template → Bool
  | [] => false
  | t :: rest => t.sets || (t.isInstant && allSet rest)

/-- Branches are entered until as many as `needed` have run out. -/
def branchesSet (needed : Nat) : List (List Template) → Bool
  | [] => false
  | branch :: rest => allSet branch ||
    if allInstant branch then needed != 1 && branchesSet (needed - 1) rest
    else branchesSet needed rest

end

mutual

/-- The template, of which something waits, can be brought to its end by commands. It is `kept` if
no wait outside it takes the countdown over that entering it sets. Waits that it reaches only after
a command keep theirs, since nothing else has to go on meanwhile. -/
def Template.endable (kept : Bool) : Template → Bool
  | ⟨kind, _, _, _⟩ => kind.endable kept

def TemplateKind.endable (kept : Bool) : TemplateKind → Bool
  | .condition _ onYes onNo => endableAll true onYes || endableAll true onNo
  | .counted _ body => endableAll kept body
  | .sleep _ _ _ _ => kept
  | .parallel _ choose branches =>
    decide (joinTarget choose.toNat branches.length ≤ endableBranches kept branches)
  | _ => true

def endableAll (kept : Bool) : List Template → Bool
  | [] => true
  | t :: rest =>
    if t.isInstant then endableAll kept rest else t.endable kept && endableAll true rest

/-- How many of the branches can be brought to their ends. The countdown of a branch is taken over
by those of the branches behind it. -/
def endableBranches (kept : Bool) : List (List Template) → Nat
  | [] => 0
  | branch :: rest =>
    (endableAll (kept && !rest.any allSet) branch).toNat + endableBranches kept rest

end

namespace Block

def sets (b : Block) : Bool :=
  match b.activity with
  | .counted remaining _ body => decide (0 < remaining) && allSet body
  | .sleep s => decide (0 < s.value)
  | .parallel join => branchesSet join.target join.branches
  | _ => false

/-- The same for a block that is yet to be entered. -/
def endable (kept : Bool) (b : Block) : Bool :=
  match b.activity with
  | .condition onYes onNo => endableAll true onYes || endableAll true onNo
  | .counted _ _ body => endableAll kept body
  | .sleep _ => kept
  | .parallel join => decide (join.target ≤ endableBranches kept join.branches)
  | _ => true

/-- The block, which is current, can be left by commands: `awaited` says whether the running
countdown is its own, and `able` counts the threads that can be brought to their ends. -/
def passable (awaited : Bool) (able : Nat) (b : Block) : Bool :=
  match b.activity with
  | .condition onYes onNo => endableAll true onYes || endableAll true onNo
  | .counted _ _ _ => false
  | .sleep _ => awaited
  | .parallel join => decide (join.target ≤ join.completed + able)
  | _ => true

end Block

def blocksSet : List Block → Bool
  | [] => false
  | b :: rest => b.sets || (b.isInstant && blocksSet rest)

def blocksEndable (kept : Bool) : List Block → Bool
  | [] => true
  | b :: rest =>
    if b.isInstant then blocksEndable kept rest else b.endable kept && blocksEndable true rest

mutual

/-- The execution can be brought to its end by commands while the countdown of this route runs. -/
def Execution.endable (route : Option (List Nat)) : Execution → Bool
  | ⟨line, threads⟩ =>
    match line.ahead with
    | [] => true
    | b :: rest =>
      b.passable (decide (route = some line.address)) (endableThreads route threads) &&
        blocksEndable true rest

/-- How many of the threads can. -/
def endableThreads (route : Option (List Nat)) : List Thread → Nat
  | [] => 0
  | ⟨_, execution⟩ :: rest => (execution.endable route).toNat + endableThreads route rest

end

theorem endableAll_of_instant {kept : Bool} {ts : List Template} (instant : allInstant ts = true) :
    endableAll kept ts = true := by
  induction ts with
  | nil => rfl
  | cons t rest ih =>
    simp only [allInstant, Bool.and_eq_true] at instant
    simp only [endableAll, instant.1, if_true]
    exact ih instant.2

mutual

/-- What can be brought to its end without its countdown can be with it. -/
theorem Template.endable_kept : ∀ {t : Template}, t.endable false = true → t.endable true = true
  | ⟨_, _, _, _⟩, h => TemplateKind.endable_kept h

theorem TemplateKind.endable_kept :
    ∀ {kind : TemplateKind}, kind.endable false = true → kind.endable true = true
  | .task _, h | .condition _ _ _, h | .asked _ _ _, h => h
  | .counted _ _, h => endableAll_kept h
  | .sleep _ _ _ _, _ => rfl
  | .parallel _ _ branches, h => by
    have more := endableBranches_kept branches
    simp only [TemplateKind.endable, decide_eq_true_eq] at h ⊢
    omega

theorem endableAll_kept : ∀ {ts : List Template}, endableAll false ts = true →
    endableAll true ts = true
  | [], _ => rfl
  | t :: rest, h => by
    cases instant : t.isInstant with
    | true =>
      simp only [endableAll, instant, if_true] at h ⊢
      exact endableAll_kept h
    | false =>
      simp only [endableAll, instant, Bool.false_eq_true, if_false, Bool.and_eq_true] at h ⊢
      exact ⟨Template.endable_kept h.1, h.2⟩

theorem endableBranches_kept : ∀ branches : List (List Template),
    endableBranches false branches ≤ endableBranches true branches
  | [] => Nat.le_refl 0
  | branch :: rest => by
    have here : endableAll false branch = true → endableAll true branch = true := endableAll_kept
    have others := endableBranches_kept rest
    simp only [endableBranches, Bool.false_and, Bool.true_and]
    cases rest.any allSet <;> cases first : endableAll false branch <;> simp [first, here] <;> omega

end

/-- A group that does not run out at once starts all its branches. -/
theorem branchesSet_eq {branches : List (List Template)} {needed : Nat}
    (few : instantBranches branches < needed) :
    branchesSet needed branches = branches.any allSet := by
  induction branches generalizing needed with
  | nil => rfl
  | cons branch rest ih =>
    rw [instantBranches] at few
    rw [branchesSet, List.any_cons]
    cases instant : allInstant branch with
    | false =>
      simp only [instant, Bool.false_eq_true, if_false, Nat.zero_add] at few ⊢
      rw [ih few]
    | true =>
      simp only [instant, if_true] at few ⊢
      have more : (needed != 1) = true := by
        simp only [bne_iff_ne]
        omega
      rw [more, Bool.true_and, ih (by omega)]

mutual

/-- Where no countdown is set none can be lost. -/
theorem TemplateKind.endable_unset (kept : Bool) : ∀ {kind : TemplateKind},
    kind.sets = false → kind.isInstant = false → kind.endable kept = kind.endable true
  | .task _, _, _ | .condition _ _ _, _, _ | .asked _ _ _, _, _ => rfl
  | .counted times body, unset, waits => by
    simp only [TemplateKind.isInstant, Bool.or_eq_false_iff, decide_eq_false_iff_not,
      Int.not_le] at waits
    simp only [TemplateKind.sets, waits.1, decide_true, Bool.true_and] at unset
    exact endableAll_unset kept unset
  | .sleep _ _ _ _, unset, waits => by
    simp only [TemplateKind.sets, decide_eq_false_iff_not] at unset
    simp only [TemplateKind.isInstant, unset, not_false_eq_true, decide_true,
      Bool.true_eq_false] at waits
  | .parallel _ choose branches, unset, waits => by
    simp only [TemplateKind.isInstant, decide_eq_false_iff_not, Nat.not_le] at waits
    simp only [TemplateKind.sets, branchesSet_eq waits] at unset
    simp only [TemplateKind.endable, endableBranches_unset kept unset]

theorem Template.endable_unset (kept : Bool) : ∀ {t : Template},
    t.sets = false → t.isInstant = false → t.endable kept = t.endable true
  | ⟨_, _, _, _⟩, unset, waits => TemplateKind.endable_unset kept unset waits

theorem endableAll_unset (kept : Bool) : ∀ {ts : List Template}, allSet ts = false →
    endableAll kept ts = endableAll true ts
  | [], _ => rfl
  | t :: rest, unset => by
    simp only [allSet, Bool.or_eq_false_iff, Bool.and_eq_false_iff] at unset
    cases instant : t.isInstant with
    | true =>
      have behind : allSet rest = false := by simpa [instant] using unset.2
      simp only [endableAll, instant, if_true]
      exact endableAll_unset kept behind
    | false =>
      simp only [endableAll, instant, Bool.false_eq_true, if_false]
      rw [Template.endable_unset kept unset.1 instant]

theorem endableBranches_unset (kept : Bool) : ∀ {branches : List (List Template)},
    branches.any allSet = false → endableBranches kept branches = endableBranches true branches
  | [], _ => rfl
  | branch :: rest, unset => by
    simp only [List.any_cons, Bool.or_eq_false_iff] at unset
    simp only [endableBranches]
    rw [endableAll_unset (kept && !rest.any allSet) unset.1,
      endableAll_unset (true && !rest.any allSet) unset.1, endableBranches_unset kept unset.2]

end

theorem Block.sets_ofTemplate (t : Template) : (ofTemplate t).sets = t.sets := by
  obtain ⟨kind, id, image, reminder⟩ := t
  cases kind <;> rfl

theorem Block.endable_ofTemplate (kept : Bool) (t : Template) :
    (ofTemplate t).endable kept = t.endable kept := by
  obtain ⟨kind, id, image, reminder⟩ := t
  cases kind <;> rfl

theorem blocksSet_ofTemplates (ts : List Template) :
    blocksSet (ts.map Block.ofTemplate) = allSet ts := by
  induction ts with
  | nil => rfl
  | cons t rest ih =>
    simp [blocksSet, allSet, Block.sets_ofTemplate, Block.isInstant_ofTemplate, ih]

theorem blocksEndable_ofTemplates (kept : Bool) (ts : List Template) :
    blocksEndable kept (ts.map Block.ofTemplate) = endableAll kept ts := by
  induction ts generalizing kept with
  | nil => rfl
  | cons t rest ih =>
    simp [blocksEndable, endableAll, Block.endable_ofTemplate, Block.isInstant_ofTemplate, ih]

theorem blocksSet_append (first second : List Block) :
    blocksSet (first ++ second) =
      (blocksSet first || (first.all Block.isInstant && blocksSet second)) := by
  induction first with
  | nil => simp [blocksSet]
  | cons b rest ih =>
    rw [List.cons_append, blocksSet, blocksSet, ih, List.all_cons]
    cases b.isInstant <;> simp [Bool.or_assoc]

theorem blocksEndable_of_instant {kept : Bool} {blocks : List Block}
    (instant : blocks.all Block.isInstant = true) : blocksEndable kept blocks = true := by
  induction blocks with
  | nil => rfl
  | cons b rest ih =>
    simp only [List.all_cons, Bool.and_eq_true] at instant
    simp only [blocksEndable, instant.1, if_true]
    exact ih instant.2

theorem blocksEndable_append (kept : Bool) (first second : List Block) :
    blocksEndable kept (first ++ second) =
      if first.all Block.isInstant then blocksEndable kept second
      else blocksEndable kept first && blocksEndable true second := by
  induction first generalizing kept with
  | nil => rfl
  | cons b rest ih =>
    rw [List.cons_append, blocksEndable, blocksEndable, List.all_cons]
    cases b.isInstant with
    | true => simpa using ih kept
    | false =>
      rw [ih true]
      cases instant : rest.all Block.isInstant with
      | true => simp [blocksEndable_of_instant instant]
      | false => simp [Bool.and_assoc]

/-- With every countdown kept, a sequence can be brought to its end if both its parts can. -/
theorem blocksEndable_true_append (first second : List Block) :
    blocksEndable true (first ++ second) =
      (blocksEndable true first && blocksEndable true second) := by
  rw [blocksEndable_append]
  split
  · next instant => rw [blocksEndable_of_instant instant, Bool.true_and]
  · rfl

theorem Block.isInstant_plan (b : Block) : b.plan.isInstant = b.isInstant := by
  obtain ⟨id, image, reminder, handle, hooks, text, activity⟩ := b
  cases activity <;> rfl

theorem Block.endable_plan (kept : Bool) (b : Block) : b.plan.endable kept = b.endable kept := by
  obtain ⟨id, image, reminder, handle, hooks, text, activity⟩ := b
  cases activity <;> rfl

theorem blocksEndable_map_plan (kept : Bool) (blocks : List Block) :
    blocksEndable kept (blocks.map Block.plan) = blocksEndable kept blocks := by
  induction blocks generalizing kept with
  | nil => rfl
  | cons b rest ih =>
    simp only [List.map_cons, blocksEndable, Block.isInstant_plan, Block.endable_plan, ih]

section Pass

variable {b next : Block} {rest : List Block} {remaining : Int} {entered : Bool}
  {body : List Template} (activity : b.activity = .counted remaining entered body)
  (more : 0 < remaining) (next_activity : next.activity = .counted (remaining - 1) true body)
include activity more next_activity

/-- The next pass of a counted loop and those that are left then set what the loop sets. -/
theorem blocksSet_pass :
    blocksSet (body.map Block.ofTemplate ++ next :: rest) = blocksSet (b :: rest) := by
  have left : ¬ remaining ≤ 0 := Int.not_le.mpr more
  rw [blocksSet_append, blocksSet_ofTemplates, all_isInstant_ofTemplates]
  simp only [blocksSet, Block.sets, Block.isInstant, activity, next_activity, more, left,
    decide_true, decide_false, Bool.true_and, Bool.false_or]
  cases set : allSet body <;> cases instant : allInstant body <;> simp

theorem blocksEndable_pass (kept : Bool) :
    blocksEndable kept (body.map Block.ofTemplate ++ next :: rest) =
      blocksEndable kept (b :: rest) := by
  have left : ¬ remaining ≤ 0 := Int.not_le.mpr more
  have later : endableAll kept body = true → endableAll true body = true := by
    cases kept with
    | true => exact id
    | false => exact endableAll_kept
  rw [blocksEndable_append, blocksEndable_ofTemplates, all_isInstant_ofTemplates]
  simp only [blocksEndable, Block.endable, Block.isInstant, activity, next_activity, left,
    decide_false, Bool.false_or]
  cases instant : allInstant body with
  | true => simp
  | false =>
    cases here : endableAll kept body with
    | false => simp
    | true => by_cases last : remaining - 1 ≤ 0 <;> simp [last, later here]

end Pass

namespace Execution

variable {e : Execution} {b : Block} {rest : List Block} {route : Option (List Nat)}

theorem endable_nil (now : e.ahead = []) (route : Option (List Nat)) :
    e.endable route = true := by
  obtain ⟨line, threads⟩ := e
  simp only at now
  simp only [endable, now]

theorem endable_cons (now : e.ahead = b :: rest) (route : Option (List Nat)) :
    e.endable route = (b.passable (decide (route = some e.address))
      (endableThreads route e.threads) && blocksEndable true rest) := by
  obtain ⟨line, threads⟩ := e
  simp only at now
  simp only [endable, now]

theorem endable_with_block (line : Sequence) (b : Block) (rest : List Block)
    (threads : List Thread) (route : Option (List Nat)) :
    endable route ⟨{ line with ahead := b :: rest }, threads⟩ =
      (b.passable (decide (route = some line.address)) (endableThreads route threads) &&
        blocksEndable true rest) := by
  rw [endable]

end Execution

theorem endableThreads_cons (route : Option (List Nat)) (t : Thread) (rest : List Thread) :
    endableThreads route (t :: rest) =
      (t.execution.endable route).toNat + endableThreads route rest := by
  obtain ⟨branch, execution⟩ := t
  rw [endableThreads]

theorem endableThreads_append (route : Option (List Nat)) (first second : List Thread) :
    endableThreads route (first ++ second) =
      endableThreads route first + endableThreads route second := by
  induction first with
  | nil => simp [endableThreads]
  | cons t rest ih =>
    rw [List.cons_append, endableThreads_cons, endableThreads_cons, ih, Nat.add_assoc]

/-- A thread of the group among the others. -/
theorem endableThreads_between (route : Option (List Nat)) (before after : List Thread)
    (t : Thread) : endableThreads route (before ++ t :: after) =
      (t.execution.endable route).toNat + endableThreads route (before ++ after) := by
  rw [endableThreads_append, endableThreads_append, endableThreads_cons]
  omega

theorem endableThreads_le {threads : List Thread} {route route' : Option (List Nat)}
    (each : ∀ t ∈ threads, t.execution.endable route = true → t.execution.endable route' = true) :
    endableThreads route threads ≤ endableThreads route' threads := by
  induction threads with
  | nil => exact Nat.le_refl 0
  | cons t rest ih =>
    have here : (t.execution.endable route).toNat ≤ (t.execution.endable route').toNat :=
      Bool.toNat_le_toNat (Bool.le_iff_imp.mpr (each t List.mem_cons_self))
    have others := ih fun s mem => each s (List.mem_cons_of_mem t mem)
    rw [endableThreads_cons, endableThreads_cons]
    omega

theorem Block.passable_mono {b : Block} {awaited awaited' : Bool} {able able' : Nat}
    (awaits : awaited = true → awaited' = true) (le : able ≤ able')
    (can : b.passable awaited able = true) : b.passable awaited' able' = true := by
  obtain ⟨id, image, reminder, handle, hooks, text, activity⟩ := b
  cases activity with
  | sleep s => exact awaits can
  | parallel join =>
    simp only [passable, decide_eq_true_eq] at can ⊢
    omega
  | _ => exact can

mutual

/-- What can be brought to its end while no countdown runs can be while one does. -/
theorem Execution.endable_of_none (route : Option (List Nat)) :
    ∀ {e : Execution}, e.endable none = true → e.endable route = true
  | ⟨line, threads⟩, h => by
    cases now : line.ahead with
    | nil => exact Execution.endable_nil now route
    | cons b rest =>
      rw [Execution.endable_cons (e := ⟨line, threads⟩) now, Bool.and_eq_true] at h ⊢
      exact ⟨Block.passable_mono (by simp) (endableThreads_none_le route threads) h.1, h.2⟩

theorem endableThreads_none_le (route : Option (List Nat)) :
    ∀ threads : List Thread, endableThreads none threads ≤ endableThreads route threads
  | [] => Nat.le_refl 0
  | ⟨branch, execution⟩ :: rest => by
    have here : execution.endable none = true → execution.endable route = true :=
      Execution.endable_of_none route
    have others := endableThreads_none_le route rest
    simp only [endableThreads]
    cases can : execution.endable none <;> simp [can, here] <;> omega

end

end Stepwise
