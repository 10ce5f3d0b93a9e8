import Mathlib.Data.List.Forall2
import Mathlib.Order.Defs.PartialOrder
import Stepwise.Proofs.Calls
import Stepwise.Snapshot

/-!
# Runs that are alike

Two runs that are told the same may hold other numbers for their reminders and for their pause
requests. A naming tells which numbers stand for each other. Parts that are alike under a naming
differ only in such numbers, and in the blocks behind them, of which only the count matters. So they
show the same.
-/

namespace Stepwise

/-- Which numbers of one run stand for which of another. -/
structure Naming where
  ids : Nat → Nat → Prop
  tokens : Nat → Nat → Prop

namespace Naming

instance : Preorder Naming where
  le n n' := (∀ i j, n.ids i j → n'.ids i j) ∧ ∀ t u, n.tokens t u → n'.tokens t u
  le_refl n := ⟨fun _ _ => id, fun _ _ => id⟩
  le_trans n n' n'' first second :=
    ⟨fun i j named => second.1 i j (first.1 i j named),
      fun t u named => second.2 t u (first.2 t u named)⟩

/-- The same pairs, read the other way round. -/
def flip (n : Naming) : Naming := ⟨fun j i => n.ids i j, fun u t => n.tokens t u⟩

end Naming

theorem optionRel_flip {α β : Type} {R : α → β → Prop} {a : Option α} {b : Option β}
    (rel : Option.Rel R a b) : Option.Rel (fun b a => R a b) b a := by
  cases rel with
  | some rel => exact .some rel
  | none => exact .none

theorem optionRel_mono {α β : Type} {R S : α → β → Prop} (weaker : ∀ a b, R a b → S a b)
    {a : Option α} {b : Option β} (rel : Option.Rel R a b) : Option.Rel S a b := by
  cases rel with
  | some rel => exact .some (weaker _ _ rel)
  | none => exact .none

inductive LeaveHook.Alike (n : Naming) : LeaveHook → LeaveHook → Prop
  | removeReminder {i j : Nat} (named : n.ids i j) :
    LeaveHook.Alike n (.removeReminder i) (.removeReminder j)
  | custom (name : String) (failure : Option ServiceError) :
    LeaveHook.Alike n (.custom name failure) (.custom name failure)

inductive Sleep.Alike (n : Naming) (s : Sleep) : Sleep → Prop
  | mk {token : Option Nat} (named : Option.Rel n.tokens s.token token) :
    Sleep.Alike n s { s with token }

inductive Activity.Alike (n : Naming) : Activity → Activity → Prop
  | sleep {s s' : Sleep} (alike : s.Alike n s') : Activity.Alike n (.sleep s) (.sleep s')
  | same {a : Activity} (tokenless : ∀ s, a ≠ .sleep s) : Activity.Alike n a a

inductive Block.Alike (n : Naming) (b : Block) : Block → Prop
  | mk {handle : Option Nat} {hooks : List LeaveHook} {activity : Activity}
      (named : Option.Rel n.ids b.handle handle)
      (hooked : List.Forall₂ (LeaveHook.Alike n) b.hooks hooks)
      (active : b.activity.Alike n activity) :
    Block.Alike n b { b with handle, hooks, activity }

/-- Blocks that are alike one by one. -/
abbrev BlocksAlike (n : Naming) : List Block → List Block → Prop := List.Forall₂ (Block.Alike n)

inductive Sequence.Alike (n : Naming) (s : Sequence) : Sequence → Prop
  | mk {behind ahead : List Block} {handle : Option Nat}
      (cursor : behind.length = s.behind.length) (blocks : BlocksAlike n s.ahead ahead)
      (named : Option.Rel n.ids s.handle handle) :
    Sequence.Alike n s { s with behind, ahead, handle }

mutual

inductive Execution.Alike (n : Naming) : Execution → Execution → Prop
  | mk {line line' : Sequence} {threads threads' : List Thread} (lines : line.Alike n line')
      (inside : ThreadsAlike n threads threads') :
    Execution.Alike n ⟨line, threads⟩ ⟨line', threads'⟩

/-- Threads of the same branches that are alike one by one. -/
inductive ThreadsAlike (n : Naming) : List Thread → List Thread → Prop
  | nil : ThreadsAlike n [] []
  | cons {branch : Nat} {e e' : Execution} {rest rest' : List Thread}
      (first : Execution.Alike n e e') (others : ThreadsAlike n rest rest') :
    ThreadsAlike n (⟨branch, e⟩ :: rest) (⟨branch, e'⟩ :: rest')

end

theorem Execution.alike_iff {n : Naming} (e e' : Execution) :
    e.Alike n e' ↔ e.toSequence.Alike n e'.toSequence ∧ ThreadsAlike n e.threads e'.threads := by
  constructor
  · rintro ⟨lines, inside⟩
    exact ⟨lines, inside⟩
  · obtain ⟨line, threads⟩ := e
    obtain ⟨line', threads'⟩ := e'
    rintro ⟨lines, inside⟩
    exact .mk lines inside

section Mono

variable {n n' : Naming} (le : n ≤ n')
include le

theorem LeaveHook.Alike.mono {hook hook' : LeaveHook} (alike : hook.Alike n hook') :
    hook.Alike n' hook' := by
  cases alike with
  | removeReminder named => exact .removeReminder (le.1 _ _ named)
  | custom name failure => exact .custom name failure

theorem Sleep.Alike.mono {s s' : Sleep} (alike : s.Alike n s') : s.Alike n' s' := by
  obtain ⟨named⟩ := alike
  exact .mk (optionRel_mono le.2 named)

theorem Activity.Alike.mono {a a' : Activity} (alike : a.Alike n a') : a.Alike n' a' := by
  cases alike with
  | sleep alike => exact .sleep (alike.mono le)
  | same tokenless => exact .same tokenless

theorem Block.Alike.mono {b b' : Block} (alike : b.Alike n b') : b.Alike n' b' := by
  obtain ⟨named, hooked, active⟩ := alike
  exact .mk (optionRel_mono le.1 named) (hooked.imp fun _ _ hook => hook.mono le) (active.mono le)

theorem BlocksAlike.mono {blocks blocks' : List Block} (alike : BlocksAlike n blocks blocks') :
    BlocksAlike n' blocks blocks' :=
  List.Forall₂.imp (fun _ _ b => b.mono le) alike

theorem Sequence.Alike.mono {s s' : Sequence} (alike : s.Alike n s') : s.Alike n' s' := by
  obtain ⟨cursor, blocks, named⟩ := alike
  exact .mk cursor (BlocksAlike.mono le blocks) (optionRel_mono le.1 named)

end Mono

mutual

theorem Execution.Alike.mono {n n' : Naming} (le : n ≤ n') :
    ∀ {e e' : Execution}, e.Alike n e' → e.Alike n' e'
  | _, _, .mk lines inside => .mk (lines.mono le) (inside.mono le)

theorem ThreadsAlike.mono {n n' : Naming} (le : n ≤ n') :
    ∀ {threads threads' : List Thread}, ThreadsAlike n threads threads' →
      ThreadsAlike n' threads threads'
  | _, _, .nil => .nil
  | _, _, .cons first others => .cons (first.mono le) (others.mono le)

end

section Flip

variable {n : Naming}

theorem LeaveHook.Alike.flip {hook hook' : LeaveHook} (alike : hook.Alike n hook') :
    hook'.Alike n.flip hook := by
  cases alike with
  | removeReminder named => exact .removeReminder named
  | custom name failure => exact .custom name failure

theorem Sleep.Alike.flip {s s' : Sleep} (alike : s.Alike n s') : s'.Alike n.flip s := by
  obtain ⟨named⟩ := alike
  exact .mk (optionRel_flip named)

theorem Activity.Alike.flip {a a' : Activity} (alike : a.Alike n a') : a'.Alike n.flip a := by
  cases alike with
  | sleep alike => exact .sleep alike.flip
  | same tokenless => exact .same tokenless

theorem Block.Alike.flip {b b' : Block} (alike : b.Alike n b') : b'.Alike n.flip b := by
  obtain ⟨named, hooked, active⟩ := alike
  exact .mk (optionRel_flip named) (hooked.flip.imp fun _ _ hook => hook.flip) active.flip

theorem BlocksAlike.flip {blocks blocks' : List Block} (alike : BlocksAlike n blocks blocks') :
    BlocksAlike n.flip blocks' blocks :=
  List.Forall₂.imp (fun _ _ b => Block.Alike.flip b) (List.Forall₂.flip alike)

theorem Sequence.Alike.flip {s s' : Sequence} (alike : s.Alike n s') : s'.Alike n.flip s := by
  obtain ⟨cursor, blocks, named⟩ := alike
  exact .mk cursor.symm (BlocksAlike.flip blocks) (optionRel_flip named)

mutual

theorem Execution.Alike.flip : ∀ {e e' : Execution}, e.Alike n e' → e'.Alike n.flip e
  | _, _, .mk lines inside => .mk lines.flip (ThreadsAlike.flip inside)

theorem ThreadsAlike.flip :
    ∀ {threads threads' : List Thread}, ThreadsAlike n threads threads' →
      ThreadsAlike n.flip threads' threads
  | _, _, .nil => .nil
  | _, _, .cons first others => .cons (Execution.Alike.flip first) (ThreadsAlike.flip others)

end

end Flip

variable {n : Naming}

theorem Block.alike_self {b : Block} (free : b.handle = none)
    (hooks : ∀ hook ∈ b.hooks, hook.Alike n hook) (active : b.activity.Alike n b.activity) :
    b.Alike n b := by
  have named : Option.Rel n.ids b.handle b.handle := by
    rw [free]
    exact .none
  exact .mk named (List.forall₂_same.mpr hooks) active

theorem HostBlock.alike_block (block : HostBlock) : block.block.Alike n block.block := by
  obtain ⟨⟨kind, id, image, reminder⟩, callbacks⟩ := block
  refine Block.alike_self ?_ ?_ ?_
  · cases kind <;> rfl
  · intro hook mem
    obtain ⟨callback, -, rfl⟩ := List.mem_map.mp mem
    exact .custom _ _
  · cases kind with
    | sleep value unit text silent => exact .sleep (.mk .none)
    | _ => exact .same nofun

theorem blocksAlike_hostBlocks (blocks : List HostBlock) :
    BlocksAlike n (blocks.map HostBlock.block) (blocks.map HostBlock.block) := by
  refine List.forall₂_same.mpr fun b mem => ?_
  obtain ⟨block, -, rfl⟩ := List.mem_map.mp mem
  exact block.alike_block

theorem Block.alike_ofTemplate (t : Template) : (ofTemplate t).Alike n (ofTemplate t) := by
  rw [← HostBlock.block_plain]
  exact HostBlock.alike_block _

theorem blocksAlike_ofTemplates (ts : List Template) :
    BlocksAlike n (ts.map Block.ofTemplate) (ts.map Block.ofTemplate) := by
  refine List.forall₂_same.mpr fun b mem => ?_
  obtain ⟨t, -, rfl⟩ := List.mem_map.mp mem
  exact Block.alike_ofTemplate t

theorem Block.Alike.addHook {b b' : Block} (alike : b.Alike n b') {hook hook' : LeaveHook}
    (hooks : hook.Alike n hook') : (b.addHook hook).Alike n (b'.addHook hook') := by
  obtain ⟨named, hooked, active⟩ := alike
  exact .mk named (.cons hooks hooked) active

theorem BlocksAlike.append {first first' second second' : List Block}
    (alike : BlocksAlike n first first') (alike' : BlocksAlike n second second') :
    BlocksAlike n (first ++ second) (first' ++ second') :=
  List.rel_append alike alike'

theorem Execution.alike_fresh (description : Option String) (reminder : Option Reminder)
    (address : List Nat) {blocks : List Block} (alike : BlocksAlike n blocks blocks) :
    (fresh description reminder address blocks).Alike n
      (fresh description reminder address blocks) :=
  .mk (.mk rfl alike .none) .nil

theorem threadsAlike_threadsFrom (address : List Nat) (first : Nat)
    (branches : List (List Template)) :
    ThreadsAlike n (threadsFrom address first branches) (threadsFrom address first branches) := by
  induction branches generalizing first with
  | nil => exact .nil
  | cons templates rest ih =>
    exact .cons (Execution.alike_fresh _ _ _ (blocksAlike_ofTemplates templates)) (ih (first + 1))

namespace ThreadsAlike

variable {threads threads' others others' : List Thread}

theorem append (alike : ThreadsAlike n threads threads') (alike' : ThreadsAlike n others others') :
    ThreadsAlike n (threads ++ others) (threads' ++ others') := by
  induction threads generalizing threads' with
  | nil =>
    cases alike
    exact alike'
  | cons t rest ih =>
    cases alike with
    | cons first alike => exact .cons first (ih alike)

theorem cons_self (t : Thread) (rest : List Thread) :
    ThreadsAlike n (t :: rest) (t :: rest) ↔
      t.execution.Alike n t.execution ∧ ThreadsAlike n rest rest := by
  constructor
  · intro both
    cases both with
    | cons alike others => exact ⟨alike, others⟩
  · rintro ⟨alike, others⟩
    obtain ⟨branch, execution⟩ := t
    exact .cons alike others

theorem append_self (first second : List Thread) :
    ThreadsAlike n (first ++ second) (first ++ second) ↔
      ThreadsAlike n first first ∧ ThreadsAlike n second second := by
  constructor
  · intro both
    induction first with
    | nil => exact ⟨.nil, both⟩
    | cons t first ih =>
      cases both with
      | cons alike others =>
        obtain ⟨left, right⟩ := ih others
        exact ⟨.cons alike left, right⟩
  · rintro ⟨left, right⟩
    exact left.append right

theorem length (alike : ThreadsAlike n threads threads') : threads'.length = threads.length := by
  induction threads generalizing threads' with
  | nil =>
    cases alike
    rfl
  | cons t rest ih =>
    cases alike with
    | cons first alike => exact congrArg (· + 1) (ih alike)

theorem isEmpty (alike : ThreadsAlike n threads threads') : threads'.isEmpty = threads.isEmpty := by
  cases alike <;> rfl

theorem findThread_none {branch : Nat} (alike : ThreadsAlike n threads threads')
    (nowhere : findThread branch threads = none) : findThread branch threads' = none := by
  induction threads generalizing threads' with
  | nil =>
    cases alike
    rfl
  | cons t rest ih =>
    cases alike with
    | cons first alike =>
      unfold findThread at nowhere ⊢
      split at nowhere
      · cases nowhere
      · next other =>
        rw [if_neg other, ih alike (Option.map_eq_none_iff.mp nowhere)]
        rfl

/-- The threads of a branch stand at the same place. -/
theorem findThread_some {branch : Nat} (alike : ThreadsAlike n threads threads')
    {before after : List Thread} {t : Thread}
    (found : findThread branch threads = some (before, t, after)) :
    ∃ before' x after', findThread branch threads' =
        some (before', { t with execution := x }, after') ∧
      ThreadsAlike n before before' ∧ t.execution.Alike n x ∧ ThreadsAlike n after after' := by
  induction threads generalizing threads' before with
  | nil => cases found
  | cons s rest ih =>
    cases alike with
    | cons first alike =>
      unfold findThread at found ⊢
      split at found
      · next here =>
        cases found
        exact ⟨[], _, _, if_pos here, .nil, first, alike⟩
      · next other =>
        obtain ⟨⟨front, t', after'⟩, found', same⟩ := Option.map_eq_some_iff.mp found
        cases same
        obtain ⟨before', x, later, found'', front_alike, alike, later_alike⟩ := ih alike found'
        refine ⟨_ :: before', x, later, ?_, .cons first front_alike, alike, later_alike⟩
        rw [if_neg other, found'']
        rfl

end ThreadsAlike

namespace Block.Alike

/-- What depends on no number of a block is the same. -/
theorem looks {α : Type} {f : Block → α}
    (numberless : ∀ (b : Block) handle hooks, f { b with handle, hooks } = f b)
    (tokenless : ∀ (b : Block) (s : Sleep) token,
      f { b with activity := .sleep { s with token } } = f { b with activity := .sleep s })
    {b b' : Block} (alike : b.Alike n b') : f b' = f b := by
  obtain ⟨id, image, reminder, handle, hooks, text, activity⟩ := b
  obtain ⟨-, -, active⟩ := alike
  cases active with
  | @sleep wait _ alike =>
    obtain @⟨token, -⟩ := alike
    have numbers :=
      numberless ⟨id, image, reminder, handle, hooks, text, .sleep { wait with token }⟩
    exact (numbers _ _).trans (tokenless ⟨id, image, reminder, handle, hooks, text, .task⟩ _ _)
  | same _ => exact numberless _ _ _

variable {b b' : Block} (alike : b.Alike n b')
include alike

theorem join? : b'.join? = b.join? := alike.looks (fun _ _ _ => rfl) fun _ _ _ => rfl

theorem isCondition : b'.isCondition = b.isCondition :=
  alike.looks (fun _ _ _ => rfl) fun _ _ _ => rfl

theorem shownText : b'.shownText = b.shownText :=
  alike.looks (fun _ _ _ => rfl) fun _ _ _ => rfl

theorem view (index threads : Nat) : BlockView.of index threads b' = BlockView.of index threads b :=
  alike.looks (fun _ _ _ => rfl) fun _ _ _ => rfl

end Block.Alike

namespace Sequence.Alike

variable {s s' : Sequence} (alike : s.Alike n s')
include alike

theorem cursor : s'.cursor = s.cursor := by
  obtain ⟨cursor, -, -⟩ := alike
  exact cursor

theorem isRunning : s'.isRunning = s.isRunning := by
  obtain ⟨-, -, -⟩ := alike
  rfl

theorem started : s'.started = s.started := by
  obtain ⟨-, -, -⟩ := alike
  rfl

theorem address : s'.address = s.address := by
  obtain ⟨-, -, -⟩ := alike
  rfl

theorem finished : s'.finished = s.finished := by
  obtain ⟨-, -, -⟩ := alike
  rfl

theorem ahead : BlocksAlike n s.ahead s'.ahead := by
  obtain ⟨-, blocks, -⟩ := alike
  exact blocks

theorem with_ahead {blocks blocks' : List Block} (same : BlocksAlike n blocks blocks') :
    Sequence.Alike n { s with ahead := blocks } { s' with ahead := blocks' } := by
  obtain ⟨cursor, -, named⟩ := alike
  exact .mk cursor same named

theorem splice {blocks blocks' : List Block} (same : BlocksAlike n blocks blocks') :
    (s.splice blocks).Alike n (s'.splice blocks') := by
  have ahead := alike.ahead
  unfold Sequence.splice
  split
  · next none =>
    have none' : s'.ahead = [] := List.forall₂_nil_left_iff.mp (none ▸ ahead)
    simp only [none']
    exact alike.with_ahead same
  · next b rest now =>
    obtain ⟨b', rest', first, later, now'⟩ := List.forall₂_cons_left_iff.mp (now ▸ ahead)
    simp only [now']
    exact alike.with_ahead (.cons first (same.append later))

/-- What has left is of no account. -/
theorem advance (left left' : Block) {blocks blocks' : List Block}
    (same : BlocksAlike n blocks blocks') :
    (s.advance left blocks).Alike n (s'.advance left' blocks') := by
  obtain ⟨cursor, -, named⟩ := alike
  exact .mk (congrArg (· + 1) cursor) same named

theorem visible? : Option.Rel (Block.Alike n) s.visible? s'.visible? := by
  obtain ⟨behind, ahead, started, finished, cancelled, description, reminder, handle, address,
    pause⟩ := s
  obtain ⟨-, blocks, -⟩ := alike
  unfold Sequence.visible? current?
  split
  · exact .none
  · cases blocks with
    | nil => exact .none
    | cons first _ => exact .some first

theorem previewAfter {b b' : Block} (current : b.Alike n b') :
    s'.previewAfter b' = s.previewAfter b := by
  obtain ⟨behind, ahead, started, finished, cancelled, description, reminder, handle, address,
    pause⟩ := s
  obtain ⟨-, blocks, -⟩ := alike
  unfold Sequence.previewAfter next?
  rw [current.isCondition]
  cases blocks with
  | nil => rfl
  | cons _ later =>
    cases later with
    | nil => rfl
    | cons next _ => simp only [List.getElem?_cons_succ, List.getElem?_cons_zero, next.shownText]

end Sequence.Alike

mutual

/-- Executions that are alike show the same. -/
theorem Execution.Alike.snapshot :
    ∀ {e e' : Execution}, e.Alike n e' → e'.snapshot = e.snapshot
  | ⟨line, threads⟩, ⟨line', threads'⟩, .mk lines inside => by
    have shown := ThreadsAlike.snapshots inside
    have described : line'.description = line.description := by
      obtain ⟨-, -, -⟩ := lines
      rfl
    simp only [Execution.snapshot, described, lines.address, lines.finished, lines.cursor,
      inside.length, shown]
    have visible := lines.visible?
    generalize line.visible? = now, line'.visible? = now' at visible ⊢
    cases visible with
    | none => rfl
    | some current => simp [current.view, lines.previewAfter current]

theorem ThreadsAlike.snapshots :
    ∀ {threads threads' : List Thread}, ThreadsAlike n threads threads' →
      Stepwise.snapshots threads' = Stepwise.snapshots threads
  | _, _, .nil => rfl
  | _, _, .cons first others => by
    simp only [Stepwise.snapshots, Execution.Alike.snapshot first, ThreadsAlike.snapshots others]

end

end Stepwise
