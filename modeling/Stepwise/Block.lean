import Stepwise.Template.Equality
import Stepwise.Text.Numeral
import Stepwise.World

/-!
# Blocks

A block is one live step of a run. It is made from a template when its sequence is put together, or
later when a condition, a loop or a parallel group takes the sequence that it stands in. The weight
of a block counts all blocks that can be entered after it without waiting for an event; it bounds
every chain of entries.
-/

namespace Stepwise

/-- What is still to be done when a block leaves: give back a reminder that a condition handed on,
or call back the host, with the error that the call ends with if it fails. -/
inductive LeaveHook where
  | removeReminder (id : Nat)
  | custom (name : String) (failure : Option ServiceError)
  deriving DecidableEq, Repr

/-- A parallel group: how many threads are to finish and how many have. -/
structure Join where
  branches : List (List Template)
  choose : Nat
  completed : Nat
  done : Bool
  deriving DecidableEq

def Join.todo (j : Join) : Nat := j.choose - j.completed

/-- A wait, with the seconds that remain, the pause token it holds and the address it was started
for. -/
structure Sleep where
  value : Int64
  unit : TimeUnit
  silent : Bool
  remaining : Binary64
  token : Option Nat
  route : List Nat
  deriving DecidableEq

namespace Sleep

def fullLength (value : Int64) (unit : TimeUnit) : Binary64 :=
  .ofInt (unit.toSeconds value).toInt

def fresh (value : Int64) (unit : TimeUnit) (silent : Bool) : Sleep :=
  ⟨value, unit, silent, fullLength value unit, none, []⟩

def isRunning (s : Sleep) : Bool := s.remaining.isPositive

/-- The length asked for. -/
def startText (s : Sleep) : String := s!"{s.value} " ++ s.unit.symbol

/-- Minutes and seconds, with the hours in front once there are any. -/
def countdownText (s : Sleep) : String :=
  let total := s.remaining.wholePart
  let clock := Text.twoDigits (total % 3600 / 60) ++ ":" ++ Text.twoDigits (total % 60)
  if 3600 ≤ total then Text.twoDigits (total / 3600) ++ ":" ++ clock else clock

end Sleep

inductive Activity where
  | task
  | condition (onYes onNo : List Template)
  | counted (remaining : Int) (entered : Bool) (body : List Template)
  | asked (loop : LoopKind) (body : List Template)
  | parallel (join : Join)
  | sleep (sleep : Sleep)
  deriving DecidableEq

structure Block where
  id : Option UInt32
  image : Option String
  reminder : Option Reminder
  /-- The number of the reminder that is running for this block. -/
  handle : Option Nat
  /-- The latest first, which is the order in which they run. -/
  hooks : List LeaveHook
  text : String
  activity : Activity
  deriving DecidableEq

namespace Block

def ofTemplate (t : Template) : Block :=
  let make (text : String) (activity : Activity) : Block :=
    ⟨t.id, t.image, t.reminder, none, [], text, activity⟩
  match t.kind with
  | .task text => make text .task
  | .condition text onYes onNo => make text (.condition onYes onNo)
  | .counted times body => make "" (.counted times.toInt false body)
  | .asked text loop body => make text (.asked loop body)
  | .parallel text choose branches => make text (.parallel ⟨branches, choose.toNat, 0, false⟩)
  | .sleep value unit text silent => make text (.sleep (.fresh value unit silent))

def addHook (hook : LeaveHook) (b : Block) : Block := { b with hooks := hook :: b.hooks }

/-- The text shown. A loop that has been entered counts the pass that it is about to make. -/
def shownText (b : Block) : String :=
  match b.activity with
  | .counted remaining entered _ =>
    let passes := if entered then remaining + 1 else remaining
    s!"{passes} more times..."
  | _ => b.text

def type (b : Block) : BlockType :=
  match b.activity with
  | .task => .simple
  | .condition _ _ | .asked _ _ => .conditional
  | .counted _ _ _ => .loop
  | .parallel _ => .parallel
  | .sleep _ => .timer

def isCondition (b : Block) : Bool :=
  match b.activity with
  | .condition _ _ | .asked _ _ => true
  | _ => false

def join? (b : Block) : Option Join :=
  match b.activity with
  | .parallel join => some join
  | _ => none

def sleep? (b : Block) : Option Sleep :=
  match b.activity with
  | .sleep sleep => some sleep
  | _ => none

/-- The next pass of a loop: a block that shares everything with this one and takes over its
reminder, but none of its hooks. -/
def successor (b : Block) (activity : Activity) : Block := { b with hooks := [], activity }

end Block

mutual

def Template.weight : Template → Nat
  | ⟨kind, _, _, _⟩ => kind.weight

def TemplateKind.weight : TemplateKind → Nat
  | .counted times body => 1 + times.toInt.toNat * (1 + weightAll body)
  | .parallel _ _ branches => 1 + weightBranches branches
  | _ => 1

def weightAll : List Template → Nat
  | [] => 0
  | t :: rest => t.weight + weightAll rest

def weightBranches : List (List Template) → Nat
  | [] => 0
  | branch :: rest => (1 + weightAll branch) + weightBranches rest

end

def Block.weight (b : Block) : Nat :=
  match b.activity with
  | .counted remaining _ body => 1 + remaining.toNat * (1 + weightAll body)
  | .parallel join => 1 + weightBranches join.branches
  | _ => 1

def blocksWeight : List Block → Nat
  | [] => 0
  | b :: rest => b.weight + blocksWeight rest

theorem Block.weight_pos (b : Block) : 0 < b.weight := by
  unfold Block.weight
  split <;> omega

theorem Block.weight_ofTemplate (t : Template) : (Block.ofTemplate t).weight = t.weight := by
  obtain ⟨kind, id, image, reminder⟩ := t
  cases kind <;> simp [ofTemplate, weight, Template.weight, TemplateKind.weight]

@[simp]
theorem blocksWeight_nil : blocksWeight [] = 0 := rfl

@[simp]
theorem blocksWeight_cons (b : Block) (rest : List Block) :
    blocksWeight (b :: rest) = b.weight + blocksWeight rest := rfl

@[simp]
theorem blocksWeight_append (first second : List Block) :
    blocksWeight (first ++ second) = blocksWeight first + blocksWeight second := by
  induction first with
  | nil => simp
  | cons b rest ih => simp [ih, Nat.add_assoc]

@[simp]
theorem blocksWeight_ofTemplates (ts : List Template) :
    blocksWeight (ts.map Block.ofTemplate) = weightAll ts := by
  induction ts with
  | nil => rfl
  | cons t rest ih => simp [weightAll, Block.weight_ofTemplate, ih]

end Stepwise
