import Stepwise.Block

/-!
# Executions

An execution is a sequence of blocks with a position: the blocks behind it, and those ahead of it of
which the first is the current one. A parallel group that is current runs a thread for each of its
branches, and a thread is an execution again; no other block has threads. The address of an
execution is its path of branch numbers from the root.
-/

namespace Stepwise

structure Sequence where
  /-- The latest first. -/
  behind : List Block
  ahead : List Block
  started : Bool
  finished : Bool
  cancelled : Bool
  description : Option String
  reminder : Option Reminder
  /-- The number of the reminder that is running for the whole sequence. -/
  handle : Option Nat
  address : List Nat
  /-- Pause requests of its own. Those of a root are in the world of its run. -/
  pause : PauseRequests
  deriving DecidableEq

mutual

structure Execution extends Sequence where
  threads : List Thread

structure Thread where
  branch : Nat
  execution : Execution

end

mutual

def Execution.decEq : (a b : Execution) → Decidable (a = b)
  | ⟨line, threads⟩, ⟨line', threads'⟩ =>
    match decEqThreads threads threads' with
    | isFalse h => isFalse fun e => h (Execution.mk.inj e).2
    | isTrue ht =>
      if h : line = line' then isTrue (by rw [h, ht])
      else isFalse fun e => h (Execution.mk.inj e).1

def decEqThreads : (a b : List Thread) → Decidable (a = b)
  | [], [] => isTrue rfl
  | [], _ :: _ | _ :: _, [] => isFalse nofun
  | ⟨branch, execution⟩ :: rest, ⟨branch', execution'⟩ :: rest' =>
    match execution.decEq execution', decEqThreads rest rest' with
    | isTrue he, isTrue hr =>
      if h : branch = branch' then isTrue (by rw [h, he, hr])
      else isFalse fun e => h (Thread.mk.inj (List.cons.inj e).1).1
    | isFalse h, _ => isFalse fun e => h (Thread.mk.inj (List.cons.inj e).1).2
    | _, isFalse h => isFalse fun e => h (List.cons.inj e).2

end

instance : DecidableEq Execution := Execution.decEq

namespace Sequence

def cursor (s : Sequence) : Nat := s.behind.length

/-- All blocks, the earliest first. -/
def blocks (s : Sequence) : List Block := s.behind.reverse ++ s.ahead

def length (s : Sequence) : Nat := s.blocks.length

def current? (s : Sequence) : Option Block := s.ahead.head?

def previous? (s : Sequence) : Option Block := s.behind.head?

def next? (s : Sequence) : Option Block := s.ahead[1]?

def isRunning (s : Sequence) : Bool := s.started && !s.finished && !s.cancelled

def fresh (description : Option String) (reminder : Option Reminder) (address : List Nat)
    (blocks : List Block) : Sequence :=
  ⟨[], blocks, false, false, false, description, reminder, none, address, .empty⟩

def push (block : Block) (s : Sequence) : Sequence := { s with ahead := s.ahead ++ [block] }

/-- Puts blocks right after the current one. -/
def splice (blocks : List Block) (s : Sequence) : Sequence :=
  match s.ahead with
  | [] => { s with ahead := blocks }
  | b :: rest => { s with ahead := b :: (blocks ++ rest) }

/-- Moves past the current block, which has just left, to the blocks given. -/
def advance (left : Block) (ahead : List Block) (s : Sequence) : Sequence :=
  { s with behind := left :: s.behind, ahead }

end Sequence

namespace Execution

def fresh (description : Option String) (reminder : Option Reminder) (address : List Nat)
    (blocks : List Block) : Execution :=
  ⟨.fresh description reminder address blocks, []⟩

def empty : Execution := fresh none none [] []

def ofWorkflow (w : Workflow) : Execution :=
  fresh (some w.description) w.reminder [] (w.blocks.map Block.ofTemplate)

end Execution

/-- The first thread of a branch, with the threads before and after it. -/
def findThread (branch : Nat) : List Thread → Option (List Thread × Thread × List Thread)
  | [] => none
  | t :: rest =>
    if t.branch = branch then some ([], t, rest)
    else (findThread branch rest).map fun (before, found, after) => (t :: before, found, after)

/-- The thread at a path of branch numbers, each leading into the parallel group that is current at
its level. -/
def Execution.thread? : List Nat → Execution → Option Execution
  | [], e => some e
  | branch :: path, e =>
    match findThread branch e.threads with
    | some (_, t, _) => t.execution.thread? path
    | none => none

/-- The threads of branches that are numbered on from `first`, in order. -/
def threadsFrom (address : List Nat) (first : Nat) : List (List Template) → List Thread
  | [] => []
  | templates :: rest =>
    ⟨first, .fresh none none (address ++ [first]) (templates.map Block.ofTemplate)⟩ ::
      threadsFrom address (first + 1) rest

/-- The threads of a group at an address, one for each branch. -/
def Join.threads (address : List Nat) (j : Join) : List Thread := threadsFrom address 0 j.branches

end Stepwise
