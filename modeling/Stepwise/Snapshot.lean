import Stepwise.Execution
import Stepwise.Value

/-!
# Snapshots

What can be seen of an execution: its current block, what comes next, and the same for its threads.
A finished execution shows no block. After a condition the next block is not known yet.
-/

namespace Stepwise

inductive Preview where
  | unknown
  | block (text : String)
  | final
  deriving DecidableEq, Repr

structure BlockView where
  index : Nat
  id : Option UInt32
  type : BlockType
  text : String
  image : Option String
  countdown : Option String
  timerRunning : Bool
  todo : Option Nat
  remaining : Option Nat
  deriving DecidableEq, Repr

mutual

structure Snapshot where
  description : Option String
  address : List Nat
  finished : Bool
  current : Option BlockView
  next : Option Preview
  threads : List ThreadView

structure ThreadView where
  branch : Nat
  execution : Snapshot

end

instance : Inhabited Snapshot := ⟨⟨none, [], false, none, none, []⟩⟩

/-- A block at an index, with the number of threads that are left to it. -/
def BlockView.of (index : Nat) (threads : Nat) (b : Block) : BlockView where
  index := index
  id := b.id
  type := b.type
  text := b.shownText
  image := b.image
  countdown := b.sleep?.map Sleep.countdownText
  timerRunning := b.sleep?.any Sleep.isRunning
  todo := b.join?.map Join.todo
  remaining := b.join?.map fun _ => threads

namespace Sequence

/-- The block that is shown. -/
def visible? (s : Sequence) : Option Block := if s.finished then none else s.current?

def previewAfter (b : Block) (s : Sequence) : Preview :=
  if b.isCondition then .unknown
  else
    match s.next? with
    | some next => .block next.shownText
    | none => .final

end Sequence

mutual

def Execution.snapshot : Execution → Snapshot
  | ⟨line, threads⟩ =>
    { description := line.description
      address := line.address
      finished := line.finished
      current := line.visible?.map (BlockView.of line.cursor threads.length)
      next := line.visible?.map line.previewAfter
      threads := if line.visible?.isSome then snapshots threads else [] }

def snapshots : List Thread → List ThreadView
  | [] => []
  | ⟨branch, execution⟩ :: rest => ⟨branch, execution.snapshot⟩ :: snapshots rest

end

def Preview.encode : Preview → Value
  | .unknown => .fields [("kind", .str "unknown")]
  | .block text => .fields [("kind", .str "block"), ("text", .str text)]
  | .final => .fields [("kind", .str "end")]

def BlockView.encode (b : BlockView) : Value :=
  .fields ([("index", .ofNat b.index)] ++
    Value.field? "id" (b.id.map fun n => .ofNat n.toNat) ++
    [("block_type", .str b.type.name), ("type_code", .ofNat b.type.code), ("text", .str b.text)] ++
    Value.field? "image" (b.image.map .str) ++
    Value.field? "additional_text" (b.countdown.map .str) ++
    [("timer_running", .bool b.timerRunning)] ++
    Value.field? "tasks_todo" (b.todo.map .ofNat) ++
    Value.field? "tasks_remaining" (b.remaining.map .ofNat))

mutual

def Snapshot.encode : Snapshot → Value
  | ⟨description, address, finished, current, next, threads⟩ =>
    .fields (Value.field? "description" (description.map .str) ++
      [("address", .list (address.map .ofNat)), ("finished", .bool finished),
        ("current", (current.map BlockView.encode).getD .null),
        ("next", (next.map Preview.encode).getD .null)] ++
      if threads.isEmpty then [] else [("threads", .list (encodeThreads threads))])

def encodeThreads : List ThreadView → List Value
  | [] => []
  | ⟨branch, execution⟩ :: rest =>
    .fields [("branch", .ofNat branch), ("execution", execution.encode)] :: encodeThreads rest

end

end Stepwise
