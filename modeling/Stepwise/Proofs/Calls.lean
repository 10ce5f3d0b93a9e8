import Stepwise.Proofs.Reliability
import Stepwise.Run

/-!
# Calls on a run

A host puts a run together from blocks of its own and then calls it as often as it likes and in any
order. What holds after every list of calls holds in every reachable state.
-/

namespace Stepwise

/-- A block as a host makes it: from a template, with callbacks of its own, the latest first. -/
structure HostBlock where
  template : Template
  callbacks : List (String × Option ServiceError)

namespace HostBlock

def block (b : HostBlock) : Block :=
  { Block.ofTemplate b.template with hooks := b.callbacks.map fun c => .custom c.1 c.2 }

def Succeeds (b : HostBlock) : Prop := ∀ c ∈ b.callbacks, c.2 = none

/-- The block of a template as it is, without callbacks. -/
def plain (t : Template) : HostBlock := ⟨t, []⟩

theorem block_plain (t : Template) : (plain t).block = Block.ofTemplate t := by
  obtain ⟨kind, id, image, reminder⟩ := t
  cases kind <;> rfl

theorem succeeds_plain (t : Template) : (plain t).Succeeds := nofun

theorem hooksSucceed_block {b : HostBlock} (h : b.Succeeds) : b.block.HooksSucceed := by
  intro hook mem
  obtain ⟨c, c_mem, rfl⟩ := List.mem_map.mp mem
  exact h c c_mem

end HostBlock

namespace Sequence

/-- What a host adds comes after the current block. -/
theorem ahead_push {s : Sequence} {b : Block} {rest : List Block} (now : s.ahead = b :: rest)
    (c : Block) : (s.push c).ahead = b :: (rest ++ [c]) := by
  simp only [push, now, List.cons_append]

theorem ahead_splice {s : Sequence} {b : Block} {rest : List Block} (now : s.ahead = b :: rest)
    (blocks : List Block) : (s.splice blocks).ahead = b :: (blocks ++ rest) := by
  simp only [splice, now]

theorem splice_eq (s : Sequence) (blocks : List Block) :
    s.splice blocks = { s with ahead := (s.splice blocks).ahead } := by
  unfold splice
  split <;> rfl

theorem mem_splice {s : Sequence} {blocks : List Block} {c : Block}
    (mem : c ∈ (s.splice blocks).ahead) : c ∈ blocks ∨ c ∈ s.ahead := by
  cases now : s.ahead with
  | nil =>
    simp only [splice, now] at mem
    exact Or.inl mem
  | cons b rest =>
    rw [ahead_splice now] at mem
    simp only [List.mem_cons, List.mem_append] at mem ⊢
    rcases mem with same | mem | mem
    · exact Or.inr (Or.inl same)
    · exact Or.inl mem
    · exact Or.inr (Or.inr mem)

end Sequence

/-- A block or a sequence was made. -/
def Entry.IsMaking : Entry → Prop
  | .built _ | .opened _ _ => True
  | _ => False

inductive Call where
  | start
  | dispatch (path : List Nat) (event : Event)
  | push (block : HostBlock)
  | splice (blocks : List HostBlock)
  | requestPause
  | releasePause (token : Nat)

/-- The blocks that a call adds. -/
def Call.added? : Call → Option (List Block)
  | .push block => some [block.block]
  | .splice blocks => some (blocks.map HostBlock.block)
  | _ => none

/-- No callback fails of the blocks that a call adds. -/
def Call.Succeeds : Call → Prop
  | .push block => block.Succeeds
  | .splice blocks => ∀ b ∈ blocks, b.Succeeds
  | _ => True

namespace Run

variable {σ : Type} (services : Services σ)

/-- The run after a call, whatever the call was answered. -/
def perform (r : Run σ) : Call → Run σ
  | .start => (r.start services).2
  | .dispatch path event => (r.dispatch services path event).2
  | .push block => r.push block.block
  | .splice blocks => r.splice (blocks.map HostBlock.block)
  | .requestPause => (r.requestPause services).2
  | .releasePause token => (r.releasePause services token).2

def after (r : Run σ) : List Call → Run σ
  | [] => r
  | call :: calls => (r.perform services call).after calls

theorem after_append (r : Run σ) (calls more : List Call) :
    r.after services (calls ++ more) = (r.after services calls).after services more := by
  induction calls generalizing r with
  | nil => rfl
  | cons call calls ih => exact ih (r.perform services call)

/-- A run that has been put together from blocks and was not called yet. -/
structure Fresh (blocks : List HostBlock) (r : Run σ) : Prop where
  root : ∃ description reminder,
    r.root = .fresh description reminder [] (blocks.map HostBlock.block)
  pause : r.world.pause = .empty

theorem fresh_ofWorkflow (w : Workflow) (host : σ) :
    (ofWorkflow w host).Fresh (w.blocks.map HostBlock.plain) := by
  refine ⟨⟨some w.description, w.reminder, ?_⟩, rfl⟩
  have same : (w.blocks.map HostBlock.plain).map HostBlock.block =
      w.blocks.map Block.ofTemplate := by
    simp [HostBlock.block_plain]
  rw [same]
  rfl

/-- A fresh run in which nothing has happened yet but that its parts were made. -/
structure Assembled (blocks : List HostBlock) (r : Run σ) : Prop extends r.Fresh blocks where
  journal : ∀ entry ∈ r.world.journal, entry.IsMaking

theorem assembled_ofWorkflow (w : Workflow) (host : σ) :
    (ofWorkflow w host).Assembled (w.blocks.map HostBlock.plain) where
  toFresh := fresh_ofWorkflow w host
  journal entry mem := by
    rcases List.mem_append.mp mem with built | opened
    · obtain ⟨t, -, rfl⟩ := List.mem_map.mp (List.mem_reverse.mp built)
      trivial
    · rw [List.mem_singleton.mp opened]
      trivial

/-- An invariant of single calls holds after every list of calls. -/
theorem after_induction {P : Run σ → Prop} {allowed : Call → Prop}
    (step : ∀ r call, allowed call → P r → P (r.perform services call)) {r : Run σ} (h : P r)
    (calls : List Call) (all : ∀ call ∈ calls, allowed call) : P (r.after services calls) := by
  induction calls generalizing r with
  | nil => exact h
  | cons call calls ih =>
    have next := step r call (all call List.mem_cons_self) h
    exact ih next fun c hc => all c (List.mem_cons_of_mem call hc)

end Run

end Stepwise
